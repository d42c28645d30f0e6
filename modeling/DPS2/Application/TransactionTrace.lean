import DPS2.Application.TransactionReader

/-! What ReadFile makes of a trace of transactions. The batches are as many as they should be,
but all their entries are zero: the assignments in the loop go from the batch to the variables. -/
namespace DPS2.Application.TransactionReader

open P2P Istream

/-- A line of a trace: two ids of one character and an amount, with blanks or tabs between. -/
structure TraceLine (convert : Bytes → Double × Bool) where
  sender : Byte
  gap : Bytes
  receiver : Byte
  gap' : Bytes
  amount : Bytes
  sender_id : sender ≠ 0 ∧ isSpace sender = false
  receiver_id : receiver ≠ 0 ∧ isSpace receiver = false
  gap_blank : gap ≠ [] ∧ ∀ b ∈ gap, b = 32 ∨ b = 9
  gap'_blank : gap' ≠ [] ∧ ∀ b ∈ gap', b = 32 ∨ b = 9
  number : amount ≠ [] ∧ (field amount).2 = []
  accepted : (convert (field amount).1).2 = true

section Trace

variable {convert : Bytes → Double × Bool}

def TraceLine.text (l : TraceLine convert) : Bytes :=
  l.sender :: (l.gap ++ l.receiver :: (l.gap' ++ l.amount))

def TraceLine.record (l : TraceLine convert) : Transaction Byte :=
  ⟨l.sender, l.receiver, (convert (field l.amount).1).1⟩

def trace (newline : Bool) (lines : List (TraceLine convert)) : Bytes :=
  [10].intercalate (lines.map TraceLine.text) ++ if newline then [10] else []

/-- What follows a line that these lines follow. -/
def afterLine (newline : Bool) (lines : List (TraceLine convert)) : Bytes :=
  if lines = [] then if newline then [10] else [] else 10 :: trace newline lines

theorem trace_cons (newline : Bool) (l : TraceLine convert) (lines : List (TraceLine convert)) :
    trace newline (l :: lines) = l.text ++ afterLine newline lines := by
  cases lines <;> simp [trace, afterLine, List.intercalate_cons_cons]

theorem gap_spaces {gap : Bytes} (blank : ∀ b ∈ gap, b = 32 ∨ b = 9) :
    ∀ b ∈ gap, isSpace b = true := by
  intro b member
  rcases blank b member with rfl | rfl <;> rfl

theorem number_not_space {l : TraceLine convert} {b : Byte} {bytes : Bytes}
    (amount : l.amount = b :: bytes) : isSpace b = false := by
  by_contra space
  have stopped := l.number.2
  rw [amount, field, scan, step_space (by simpa using space)] at stopped
  contradiction

theorem skip_gap {gap : Bytes} {b : Byte} (more : Bytes) (blank : ∀ b ∈ gap, b = 32 ∨ b = 9)
    (head : isSpace b = false) : skip (gap ++ b :: more) = b :: more := by
  rw [skip_append (gap_spaces blank), skip_of_head head]

/-- The number ends where the line does. -/
theorem field_before_line_end {l : TraceLine convert} {more : Bytes}
    (line_end : more = [] ∨ ∃ rest, more = 10 :: rest) :
    field (l.amount ++ more) = ((field l.amount).1, more) := by
  rcases line_end with rfl | ⟨rest, rfl⟩
  · rw [List.append_nil, ← l.number.2]
  · exact scan_before_space rfl l.number.2

end Trace

section Extraction

variable {N : BitVec 32} {convert : Bytes → Double × Bool} {s : State N}

theorem extract_line {l : TraceLine convert} {blank more : Bytes}
    (open_ : s.file.good = true) (spaces : ∀ b ∈ blank, isSpace b = true)
    (rest : s.file.rest = blank ++ (l.text ++ more))
    (line_end : more = [] ∨ ∃ rest, more = 10 :: rest) :
    extract convert s = { s with
      file := ⟨more, more.isEmpty, false⟩, sender := l.sender, receiver := l.receiver,
      amount := l.record.amount } := by
  have sender : skip s.file.rest =
      l.sender :: (l.gap ++ l.receiver :: (l.gap' ++ (l.amount ++ more))) := by
    rw [rest, skip_append spaces]
    simp [TraceLine.text, skip_of_head l.sender_id.2]
  have receiver := skip_gap (l.gap' ++ (l.amount ++ more)) l.gap_blank.2 l.receiver_id.2
  have amount : skip (l.gap' ++ (l.amount ++ more)) = l.amount ++ more := by
    cases number : l.amount with
    | nil => exact absurd number l.number.1
    | cons b bytes => exact skip_gap _ l.gap'_blank.2 (number_not_space number)
  have digits := l.number.1
  simp [extract, getChar_of_good, getDouble_of_good, open_, sender, receiver, amount, digits,
    field_before_line_end line_end, l.accepted, TraceLine.record]

/-- Nothing is read where only white space is left. -/
theorem extract_end (convert : Bytes → Double × Bool) (open_ : s.file.good = true)
    (none_left : skip s.file.rest = []) :
    extract convert s = { s with file := ⟨[], true, true⟩ } := by
  simp [extract, getChar_of_good, open_, none_left, getChar_of_not_good, getDouble_of_not_good]

end Extraction

section Batches

variable {N : BitVec 32} {convert : Bytes → Double × Bool} {s : State N} {newline : Bool}
  {l : TraceLine convert} {lines : List (TraceLine convert)}

def zeros (N : BitVec 32) : Transactions N := Vector.replicate N.toNat .zero

/-- These lines are left in the file. -/
def Ahead (convert : Bytes → Double × Bool) (newline : Bool) (lines : List (TraceLine convert))
    (file : Istream) : Prop :=
  lines = [] ∧ file.eof = true ∨
  file.good = true ∧ ∃ blank : Bytes, (∀ b ∈ blank, isSpace b = true) ∧
    file.rest = blank ++ trace newline lines

/-- The inner loop, with these lines left in the file. -/
structure Reading (convert : Bytes → Double × Bool) (newline : Bool)
    (lines : List (TraceLine convert)) (s : State N) : Prop where
  inner : s.point = .inner
  bound : s.i ≤ N
  zeroed : s.transactions = zeros N
  values : lines = [] → s.blank = true
  ahead : Ahead convert newline lines s.file

theorem blank_of_zeros {s : State N} (sender : s.sender = 0) (receiver : s.receiver = 0)
    (amount : s.amount = 0) : s.blank = true := by
  simp [State.blank, sender, receiver, amount, isZero]

theorem ahead_nothing {file : Istream} (ahead : Ahead convert newline [] file)
    (more : file.eof = false) : file.good = true ∧ skip file.rest = [] := by
  obtain ⟨open_, blank, spaces, rest⟩ := ahead.resolve_left fun h => by simp [more] at h
  refine ⟨open_, skip_all ?_⟩
  rw [rest]
  cases newline <;> simpa [trace, or_imp, forall_and, isSpace] using spaces

theorem ahead_after_line (newline : Bool) (lines : List (TraceLine convert)) :
    Ahead convert newline lines
      ⟨afterLine newline lines, (afterLine newline lines).isEmpty, false⟩ := by
  cases lines with
  | nil =>
    cases newline with
    | false => exact .inl ⟨rfl, rfl⟩
    | true => exact .inr ⟨rfl, [], by simp [trace, afterLine]⟩
  | cons l lines => exact .inr ⟨rfl, [10], by simp [isSpace], rfl⟩

theorem succ_le_of_lt {i N : BitVec 32} (room : i < N) : i + 1 ≤ N := by
  bv_omega

theorem assign_zeroed (zeroed : s.transactions = zeros N) (i : Fin N.toNat) :
    assign s i = { s with sender := 0, receiver := 0, amount := 0 } := by
  have entry : s.transactions.get i = .zero := by
    simp [zeroed, zeros, Vector.get_eq_getElem]
  simp [assign, entry, Transaction.zero]

/-- Data that counts as valid is overwritten with that of the batch. -/
theorem next_valid (inner : s.point = .inner) (room : s.i < N) (more : s.file.eof = false)
    (zeroed : s.transactions = zeros N) (valid : (extract convert s).blank = false) :
    next convert s = { s with
      file := (extract convert s).file, sender := 0, receiver := 0, amount := 0,
      i := s.i + 1 } := by
  have stored : body convert s room = { s with
      file := (extract convert s).file, sender := 0, receiver := 0, amount := 0 } := by
    simp only [body, valid, Bool.false_eq_true, if_false]
    exact assign_zeroed (s := extract convert s) zeroed _
  rw [next_record _ inner room more, stored]

/-- After data that does not count as valid the index is what it was. -/
theorem next_invalid (inner : s.point = .inner) (room : s.i < N) (more : s.file.eof = false)
    (invalid : (extract convert s).blank = true) : next convert s = extract convert s := by
  have back : (extract convert s).i - 1 + 1 = (extract convert s).i := BitVec.sub_add_cancel _ _
  rw [next_record _ inner room more]
  simp only [body, invalid, if_true, back]

theorem next_line (reading : Reading convert newline (l :: lines) s) (room : s.i < N) :
    Reading convert newline lines (next convert s) ∧ (next convert s).i = s.i + 1 ∧
      (next convert s).vec = s.vec := by
  obtain ⟨open_, blank, spaces, rest⟩ :=
    reading.ahead.resolve_left fun h => List.cons_ne_nil _ _ h.1
  have more : s.file.eof = false := by
    simp only [good, Bool.and_eq_true, Bool.not_eq_true'] at open_
    exact open_.1
  have line_end : afterLine newline lines = [] ∨ ∃ rest, afterLine newline lines = 10 :: rest := by
    cases lines <;> cases newline <;> simp [afterLine]
  rw [trace_cons] at rest
  have read := extract_line open_ spaces rest line_end
  have valid : (extract convert s).blank = false := by
    have id_ : (l.sender == 0) = false := beq_eq_false_iff_ne.mpr l.sender_id.1
    simp only [read, State.blank, id_, Bool.false_and]
  rw [next_valid reading.inner room more reading.zeroed valid, read]
  exact ⟨⟨reading.inner, succ_le_of_lt room, reading.zeroed,
    fun _ => blank_of_zeros rfl rfl rfl, ahead_after_line newline lines⟩, rfl, rfl⟩

theorem next_end (reading : Reading convert newline [] s) (room : s.i < N)
    (more : s.file.eof = false) :
    Reading convert newline [] (next convert s) ∧
      (next convert s).file.eof = true ∧ (next convert s).i = s.i ∧
      (next convert s).vec = s.vec := by
  obtain ⟨open_, none_left⟩ := ahead_nothing reading.ahead more
  have read := extract_end convert open_ none_left
  have same := reading.values rfl
  rw [next_invalid reading.inner room more (by rw [read]; exact same), read]
  exact ⟨⟨reading.inner, reading.bound, reading.zeroed, fun _ => same, .inl ⟨rfl, rfl⟩⟩,
    rfl, rfl, rfl⟩

/-- Variables that are not all zero are taken for a record where nothing is left. -/
theorem next_nothing (newline : Bool) (inner : s.point = .inner) (room : s.i < N)
    (more : s.file.eof = false)
    (zeroed : s.transactions = zeros N) (ahead : Ahead convert newline [] s.file)
    (garbage : s.blank = false) :
    Reading convert newline [] (next convert s) ∧
      (next convert s).file.eof = true ∧ (next convert s).i = s.i + 1 ∧
      (next convert s).vec = s.vec := by
  obtain ⟨open_, none_left⟩ := ahead_nothing ahead more
  have read := extract_end convert open_ none_left
  rw [next_valid inner room more zeroed (by rw [read]; exact garbage), read]
  exact ⟨⟨inner, succ_le_of_lt room, zeroed, fun _ => blank_of_zeros rfl rfl rfl,
    .inl ⟨rfl, rfl⟩⟩, rfl, rfl, rfl⟩

/-- A full batch is stored and the next one is begun. -/
theorem next_full (positive : 0 < N) (reading : Reading convert newline lines s) (full : s.i = N)
    (more : s.file.eof = false) :
    Reading convert newline lines (next convert (next convert s)) ∧
      (next convert (next convert s)).i = 0 ∧
      (next convert (next convert s)).vec = s.vec ++ [zeros N] ∧
      Lts.Leads (next convert) result s (next convert (next convert s)) := by
  have stored := next_batch convert reading.inner fun h => by simp [full] at h
  have nonzero : s.i ≠ 0 := by
    rw [full]
    bv_omega
  rw [if_pos nonzero, reading.zeroed] at stored
  have begun := next_outer convert (congrArg State.point stored)
  have outer_runs : result (next convert s) = none := by simp [stored, result, more]
  have inner_runs : result s = none := by simp [result, reading.inner]
  refine ⟨?_, congrArg State.i begun, ?_, .step inner_runs (.one outer_runs)⟩
  · rw [begun, stored]
    exact ⟨rfl, BitVec.le_def.mpr (Nat.zero_le _), rfl, reading.values, reading.ahead⟩
  · rw [begun, stored]

theorem batch_count_of_le {N i : Nat} (bound : i ≤ N) :
    (i + N - 1) / N = if i = 0 then 0 else 1 := by
  split
  · next none_ =>
    subst none_
    rcases Nat.eq_zero_or_pos N with rfl | positive
    · rfl
    · exact Nat.div_eq_of_lt (by omega)
  · rw [Nat.div_eq_iff (by omega)]
    omega

/-- At the end of the file the last batch is stored, unless it is empty. -/
theorem ended_returns (reading : Reading convert newline lines s) (ended : s.file.eof = true) :
    Lts.Ends (next convert) result s
      (s.vec ++ List.replicate ((s.i.toNat + N.toNat - 1) / N.toNat) (zeros N)) := by
  have stored := next_batch convert reading.inner fun h => by simp [ended] at h
  have runs : result s = none := by simp [result, reading.inner]
  have returned : result (next convert s) = some (next convert s).vec := by
    simp [stored, result, ended]
  have batches : (next convert s).vec =
      s.vec ++ List.replicate ((s.i.toNat + N.toNat - 1) / N.toNat) (zeros N) := by
    rw [batch_count_of_le reading.bound, stored, reading.zeroed]
    have none_iff : s.i.toNat = 0 ↔ s.i = 0#32 := by simp [BitVec.toNat_eq]
    by_cases none_ : s.i = 0#32 <;> simp [none_iff, none_]
  rw [← batches]
  exact .later runs (.now returned)

/-- If a batch that is not full leads to the right number of batches, so does a full one. -/
theorem returns_of_room (positive : 0 < N)
    (room : ∀ t : State N, Reading convert newline lines t → t.i < N →
      Lts.Ends (next convert) result t (t.vec ++
        List.replicate ((t.i.toNat + lines.length + N.toNat - 1) / N.toNat) (zeros N)))
    (reading : Reading convert newline lines s) :
    Lts.Ends (next convert) result s (s.vec ++
      List.replicate ((s.i.toNat + lines.length + N.toNat - 1) / N.toNat) (zeros N)) := by
  by_cases free : s.i < N
  · exact room s reading free
  · cases ended : s.file.eof with
    | true =>
      have last : lines = [] := by
        rcases reading.ahead with h | h
        · exact h.1
        · simp [good, ended] at h
      simpa [last] using ended_returns reading ended
    | false =>
      have full : s.i = N := BitVec.le_antisymm reading.bound (BitVec.not_lt.mp free)
      obtain ⟨begun, first, stored, leads⟩ := next_full positive reading full ended
      have rest := room _ begun (by rw [first]; exact positive)
      rw [first, stored, List.append_assoc, List.singleton_append, ← List.replicate_succ] at rest
      have batches : (s.i.toNat + lines.length + N.toNat - 1) / N.toNat =
          ((0 : BitVec 32).toNat + lines.length + N.toNat - 1) / N.toNat + 1 := by
        have some_ : 0 < N.toNat := positive
        rw [← Nat.add_div_right _ some_, full]
        congr 1
        simp
        omega
      rw [batches]
      exact rest.before leads

theorem reading_returns (positive : 0 < N) (reading : Reading convert newline lines s) :
    Lts.Ends (next convert) result s (s.vec ++
      List.replicate ((s.i.toNat + lines.length + N.toNat - 1) / N.toNat) (zeros N)) := by
  induction lines generalizing s with
  | nil =>
    apply returns_of_room positive _ reading
    intro t reading room
    cases ended : t.file.eof with
    | true => exact ended_returns reading ended
    | false =>
      obtain ⟨reading', ended', index, vec⟩ := next_end reading room ended
      have rest := ended_returns reading' ended'
      rw [index, vec] at rest
      exact .later (by simp [result, reading.inner]) rest
  | cons l lines ih =>
    apply returns_of_room positive _ reading
    intro t reading room
    obtain ⟨reading', index, vec⟩ := next_line reading room
    have rest := ih reading'
    have count : (t.i + 1).toNat = t.i.toNat + 1 := by bv_omega
    rw [index, vec, count] at rest
    have lines_ : t.i.toNat + (l :: lines).length = t.i.toNat + 1 + lines.length := by
      simp only [List.length_cons]
      omega
    rw [lines_]
    exact .later (by simp [result, reading.inner]) rest

end Batches

section Faithful

variable {N : BitVec 32} {convert : Bytes → Double × Bool} {uninitialised : State N}
  {newline : Bool} {lines : List (TraceLine convert)}

/-- The batches are as many as these records need and hold them in order, and what is left of
the last one is zero. -/
def Loaded (records : List (Transaction Byte)) (batches : List (Transactions N)) : Prop :=
  batches.length = (records.length + N.toNat - 1) / N.toNat ∧
  (batches.map Vector.toList).flatten =
    records ++ List.replicate (N.toNat * batches.length - records.length) .zero

theorem no_batches (N : Nat) : (0 + N - 1) / N = 0 := batch_count_of_le (Nat.zero_le N)

theorem next_start (uninitialised : State N) (newline : Bool) (lines : List (TraceLine convert)) :
    next convert (start uninitialised (some (trace newline lines))) =
      { uninitialised with
        file := ⟨trace newline lines, false, false⟩, transactions := zeros N, i := 0, vec := [],
        point := .inner } :=
  next_outer _ rfl

/-- The batches that are returned are as many as they should be and all zero. -/
theorem zero_batches_returned (positive : 0 < N) (uninitialised : State N) (newline : Bool)
    (lines : List (TraceLine convert)) (started : lines = [] → uninitialised.blank = true) :
    ReadFile convert uninitialised (some (trace newline lines))
      (List.replicate ((lines.length + N.toNat - 1) / N.toNat) (zeros N)) := by
  have begun := next_start uninitialised newline lines
  have reading : Reading convert newline lines
      (next convert (start uninitialised (some (trace newline lines)))) := by
    rw [begun]
    exact ⟨rfl, BitVec.le_def.mpr (Nat.zero_le _), rfl, started,
      .inr ⟨rfl, [], List.forall_mem_nil _, rfl⟩⟩
  have rest := reading_returns positive reading
  have index : (next convert (start uninitialised (some (trace newline lines)))).i.toNat = 0 := by
    simp [begun]
  have vec : (next convert (start uninitialised (some (trace newline lines)))).vec = [] := by
    simp [begun]
  rw [index, vec, Nat.zero_add, List.nil_append] at rest
  exact .later rfl rest

/-- Variables that are not all zero are taken for a record of an empty file. -/
theorem empty_returned (positive : 0 < N) (newline : Bool)
    (started : uninitialised.blank = false) :
    ReadFile convert uninitialised (some (trace newline ([] : List (TraceLine convert))))
      [zeros N] := by
  have begun := next_start uninitialised newline ([] : List (TraceLine convert))
  obtain ⟨reading, ended, index, vec⟩ := next_nothing newline
    (s := next convert (start uninitialised (some (trace newline ([] : List (TraceLine convert))))))
    (by rw [begun]) (by rw [begun]; exact positive) (by rw [begun]) (by rw [begun])
    (by rw [begun]; exact .inr ⟨rfl, [], List.forall_mem_nil _, rfl⟩)
    (by rw [begun]; exact started)
  have rest := ended_returns reading ended
  rw [batch_count_of_le reading.bound, index, vec] at rest
  refine .later rfl (.later ?_ ?_)
  · simp [begun, result]
  · simpa [begun] using rest

theorem not_loaded_zeros {l : TraceLine convert} {count : Nat} :
    ¬ Loaded ((l :: lines).map TraceLine.record) (List.replicate count (zeros N)) := by
  rintro ⟨_, held⟩
  have member : l.record ∈ ((List.replicate count (zeros N)).map Vector.toList).flatten := by
    rw [held]
    simp
  have zero : count ≠ 0 ∧ N.toNat ≠ 0 ∧ l.record = .zero := by
    simpa [zeros] using List.mem_flatten.mp member
  exact l.sender_id.1 (congrArg Transaction.sender zero.2.2)

/-- The trace is loaded as it should be exactly if it has no lines and the variables that are not
initialised happen to be zero. -/
theorem trace_loaded_iff (positive : 0 < N) (convert : Bytes → Double × Bool)
    (uninitialised : State N) (newline : Bool) (lines : List (TraceLine convert)) :
    (∃ batches, ReadFile convert uninitialised (some (trace newline lines)) batches ∧
      Loaded (lines.map TraceLine.record) batches) ↔
      lines = [] ∧ uninitialised.blank = true := by
  constructor
  · rintro ⟨batches, returns, loaded⟩
    cases lines with
    | cons l lines =>
      have zeros_ := zero_batches_returned positive uninitialised newline (l :: lines)
        fun h => absurd h (List.cons_ne_nil _ _)
      rw [returns.unique zeros_] at loaded
      exact absurd loaded not_loaded_zeros
    | nil =>
      cases started : uninitialised.blank with
      | true => exact ⟨rfl, rfl⟩
      | false =>
        rw [returns.unique (empty_returned positive newline started)] at loaded
        have count := loaded.1
        simp only [List.length_cons, List.length_nil, List.map_nil, no_batches] at count
        contradiction
  · rintro ⟨rfl, started⟩
    have returns := zero_batches_returned positive uninitialised newline
      ([] : List (TraceLine convert)) fun _ => started
    rw [List.length_nil, no_batches] at returns
    exact ⟨[], returns, (no_batches N.toNat).symm, by simp⟩

/-- The line a b 1, with blanks between. -/
def oneLine : TraceLine readsOne where
  sender := 97
  gap := [32]
  receiver := 98
  gap' := [32]
  amount := [49]
  sender_id := by decide
  receiver_id := by decide
  gap_blank := by decide
  gap'_blank := by decide
  number := by decide
  accepted := by decide

theorem empty_trace_loaded : ∃ batches,
    ReadFile (N := 1) readsOne default (some (trace false ([] : List (TraceLine readsOne))))
      batches ∧ Loaded [] batches :=
  (trace_loaded_iff (N := 1) (by decide) readsOne default false []).mpr ⟨rfl, by decide⟩

/-- One line is returned as one batch of zeros. -/
theorem one_line_lost : ¬ ∃ batches,
    ReadFile (N := 1) readsOne default (some (trace false [oneLine])) batches ∧
      Loaded ([oneLine].map TraceLine.record) batches := by
  rintro ⟨batches, returns, loaded⟩
  have zeros_ := zero_batches_returned (N := 1) (by decide) default false [oneLine]
    fun h => absurd h (List.cons_ne_nil _ _)
  rw [returns.unique zeros_] at loaded
  exact not_loaded_zeros loaded

/-- The records that are read never get into a batch. -/
structure Unfilled (s : State N) : Prop where
  transactions : s.point = .inner → s.transactions = zeros N
  vec : ∀ batch ∈ s.vec, batch = zeros N

theorem unfilled_next (h : Unfilled s) : Unfilled (next convert s) := by
  cases hp : s.point with
  | outer =>
    rw [next, hp]
    exact ⟨fun _ => rfl, h.vec⟩
  | inner =>
    have same := h.transactions hp
    rw [next, hp]
    dsimp only
    split
    · rename_i inside
      have kept : (body convert s inside.1).transactions = s.transactions ∧
          (body convert s inside.1).vec = s.vec := by
        unfold body extract assign
        dsimp only
        split <;> exact ⟨rfl, rfl⟩
      constructor
      · intro _
        exact kept.1.trans same
      · dsimp only
        rw [kept.2]
        exact h.vec
    · refine ⟨by rintro ⟨⟩, ?_⟩
      dsimp only
      split
      · rw [same, List.forall_mem_append, List.forall_mem_singleton]
        exact ⟨h.vec, rfl⟩
      · exact h.vec

/-- Whatever is in the file, and also if it cannot be opened: if ReadFile returns, then batches
of zeros. -/
theorem only_zeros_returned (convert : Bytes → Double × Bool) (uninitialised : State N)
    (content : Option Bytes) (batches : List (Transactions N))
    (returns : ReadFile convert uninitialised content batches) :
    batches = List.replicate batches.length (zeros N) := by
  have begun : Unfilled (start uninitialised content) := ⟨by rintro ⟨⟩, List.forall_mem_nil _⟩
  obtain ⟨s, unfilled, ended⟩ := returns.holds (fun _ h _ => unfilled_next h) begun
  unfold result at ended
  split at ended
  · split at ended
    · cases ended
      exact List.eq_replicate_of_mem unfilled.vec
    · contradiction
  · contradiction

theorem only_zeros_of_line : [zeros 1] = List.replicate 1 (zeros 1) :=
  only_zeros_returned (N := 1) readsOne default (some (trace false [oneLine])) [zeros 1]
    (zero_batches_returned (N := 1) (by decide) default false [oneLine] nofun)

end Faithful

end DPS2.Application.TransactionReader
