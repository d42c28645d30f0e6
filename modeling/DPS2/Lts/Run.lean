import Mathlib.Data.List.Basic

/-! Runs of a deterministic system that is driven by a list of events, and the
induction rules for what holds along a run. -/
namespace Lts

variable {S E : Type}

def run (step : S → E → S) (s : S) : List E → S
  | [] => s
  | e :: es => run step (step s e) es

/-- Every step of the run is taken under the condition. -/
def Throughout (step : S → E → S) (C : S → E → Prop) (s : S) : List E → Prop
  | [] => True
  | e :: es => C s e ∧ Throughout step C (step s e) es

instance decidableThroughout (step : S → E → S) (C : S → E → Prop) [∀ s e, Decidable (C s e)]
    (s : S) (es : List E) : Decidable (Throughout step C s es) :=
  match es with
  | [] => isTrue trivial
  | e :: es =>
      have := decidableThroughout step C (step s e) es
      inferInstanceAs (Decidable (C s e ∧ Throughout step C (step s e) es))

variable {step : S → E → S} {C D : S → E → Prop}

theorem run_append (s : S) (es fs : List E) :
    run step s (es ++ fs) = run step (run step s es) fs := by
  induction es generalizing s with
  | nil => rfl
  | cons e es ih => exact ih (step s e)

theorem Throughout.imp (weaker : ∀ s e, C s e → D s e) {s : S} {es : List E}
    (h : Throughout step C s es) : Throughout step D s es := by
  induction es generalizing s with
  | nil => trivial
  | cons e es ih => exact ⟨weaker s e h.1, ih h.2⟩

/-- What every step under the condition preserves holds at the end of the run. -/
theorem invariant_run {Inv : S → Prop} (preserved : ∀ s e, Inv s → C s e → Inv (step s e))
    {s : S} {es : List E} (start : Inv s) (h : Throughout step C s es) :
    Inv (run step s es) := by
  induction es generalizing s with
  | nil => exact start
  | cons e es ih => exact ih (preserved s e start h.1) h.2

theorem invariant_always {Inv : S → Prop} (preserved : ∀ s e, Inv s → Inv (step s e))
    {s : S} (start : Inv s) (es : List E) : Inv (run step s es) := by
  induction es generalizing s with
  | nil => exact start
  | cons e es ih => exact ih (preserved s e start)

/-- As invariant_always, for what also speaks of the states that the run has passed. -/
theorem invariant_past {Inv : List S → S → Prop}
    (preserved : ∀ past s e, Inv past s → Inv (step s e :: past) (step s e)) {past : List S} {s : S}
    (start : Inv past s) (here : s ∈ past) (es : List E) :
    ∃ past', Inv past' (run step s es) ∧ past ⊆ past' ∧
      ∀ pre post, es = pre ++ post → run step s pre ∈ past' := by
  induction es generalizing past s with
  | nil =>
    refine ⟨past, start, List.Subset.refl _, fun pre post split => ?_⟩
    rw [(List.append_eq_nil_iff.mp split.symm).1]
    exact here
  | cons e es ih =>
    obtain ⟨past', kept, more, all⟩ := ih (preserved past s e start) List.mem_cons_self
    refine ⟨past', kept, List.Subset.trans (List.subset_cons_self _ _) more,
      fun pre post split => ?_⟩
    cases pre with
    | nil => exact more (List.mem_cons_of_mem _ here)
    | cons e' pre =>
      obtain ⟨rfl, rest⟩ := List.cons.inj split
      exact all pre post rest

/-- If a step leads to a good state exactly under the condition, then all states of a run are
good exactly when all its steps are taken under it. -/
theorem always_iff {Inv Good : S → Prop} (preserved : ∀ s e, Inv s → Inv (step s e))
    (exact_ : ∀ s e, Inv s → Good s → (Good (step s e) ↔ C s e)) {s : S} (start : Inv s)
    (good : Good s) (es : List E) :
    (∀ n, Good (run step s (es.take n))) ↔ Throughout step C s es := by
  induction es generalizing s with
  | nil => simp [run, Throughout, good]
  | cons e es ih =>
    constructor
    · intro always
      have next : Good (step s e) := always 1
      exact ⟨(exact_ s e start good).mp next,
        (ih (preserved s e start) next).mp fun n => always (n + 1)⟩
    · rintro ⟨now, later⟩ n
      have next := (exact_ s e start good).mpr now
      cases n with
      | zero => exact good
      | succ n => exact (ih (preserved s e start) next).mpr later n

/-- If a step leads to a clean state exactly from a clean one under the condition, then a run ends
in a clean state exactly when all its steps are taken under it. -/
theorem clean_iff {Clean : S → Prop}
    (exact_ : ∀ s e, C s e → (Clean (step s e) ↔ Clean s ∧ D s e)) {s : S} {es : List E}
    (h : Throughout step C s es) :
    Clean (run step s es) ↔ Clean s ∧ Throughout step D s es := by
  induction es generalizing s with
  | nil => simp [run, Throughout]
  | cons e es ih =>
    rw [run, ih h.2, exact_ s e h.1, Throughout, and_assoc]

/-- If every step from inside either ends or lowers a well-founded measure, then it ends, and
until then the run stays inside. -/
theorem reaches {M : Type} {r : M → M → Prop} (wf : WellFounded r) (measure : S → M)
    {Inside Done : S → Prop} (e : E)
    (progress : ∀ s, Inside s →
      Done (step s e) ∨ Inside (step s e) ∧ r (measure (step s e)) (measure s))
    {s : S} (start : Inside s) :
    ∃ k, Throughout step (fun s _ => Inside s) s (List.replicate k e) ∧
      Done (run step s (List.replicate k e)) := by
  generalize rank : measure s = m
  induction m using wf.induction generalizing s with
  | _ m ih =>
    rcases progress s start with ended | ⟨inside, lower⟩
    · exact ⟨1, ⟨start, trivial⟩, ended⟩
    · rw [rank] at lower
      obtain ⟨k, path, ended⟩ := ih _ lower inside rfl
      exact ⟨k + 1, ⟨start, path⟩, ended⟩

theorem eventually {M : Type} {r : M → M → Prop} (wf : WellFounded r) (measure : S → M)
    {Inside Done : S → Prop} (e : E)
    (progress : ∀ s, Inside s →
      Done (step s e) ∨ Inside (step s e) ∧ r (measure (step s e)) (measure s))
    {s : S} (start : Inside s) : ∃ k, Done (run step s (List.replicate k e)) := by
  obtain ⟨k, _, ended⟩ := reaches wf measure e progress start
  exact ⟨k, ended⟩

section Results

variable {R : Type} {next : S → S} {result : S → Option R}

/-- A system that steps on its own ends with the first result that it comes to. -/
inductive Ends (next : S → S) (result : S → Option R) : S → R → Prop where
  | now {s : S} {r : R} (ended : result s = some r) : Ends next result s r
  | later {s : S} {r : R} (running : result s = none) (rest : Ends next result (next s) r) :
      Ends next result s r

/-- Steps that are taken before there is a result. -/
inductive Leads (next : S → S) (result : S → Option R) : S → S → Prop where
  | here (s : S) : Leads next result s s
  | step {s t : S} (running : result s = none) (rest : Leads next result (next s) t) :
      Leads next result s t

theorem Leads.one {s : S} (running : result s = none) : Leads next result s (next s) :=
  .step running (.here _)

theorem Leads.trans {s t u : S} (first : Leads next result s t) (second : Leads next result t u) :
    Leads next result s u := by
  induction first with
  | here => exact second
  | step running _ ih => exact .step running (ih second)

theorem Ends.before {s t : S} {r : R} (ends : Ends next result t r)
    (leads : Leads next result s t) : Ends next result s r := by
  induction leads with
  | here => exact ends
  | step running _ ih => exact .later running (ih ends)

theorem Ends.unique {s : S} {r r' : R} (h : Ends next result s r) (h' : Ends next result s r') :
    r = r' := by
  induction h with
  | now ended =>
    cases h' with
    | now ended' => exact Option.some.inj (ended.symm.trans ended')
    | later running => rw [ended] at running; contradiction
  | later running _ ih =>
    cases h' with
    | now ended' => rw [running] at ended'; contradiction
    | later _ rest => exact ih rest

/-- What every step before the result preserves holds in the state that has the result. -/
theorem Ends.holds {Inv : S → Prop} (preserved : ∀ s, Inv s → result s = none → Inv (next s))
    {s : S} {r : R} (ends : Ends next result s r) (start : Inv s) :
    ∃ t, Inv t ∧ result t = some r := by
  induction ends with
  | now ended => exact ⟨_, start, ended⟩
  | later running _ ih => exact ih (preserved _ start running)

/-- If every step from inside lowers a measure and stays inside, there is a result. -/
theorem ends_of_measure {Inside : S → Prop} (measure : S → Nat)
    (progress : ∀ s, Inside s → result s = none →
      Inside (next s) ∧ measure (next s) < measure s) {s : S} (start : Inside s) :
    ∃ r, Ends next result s r := by
  generalize rank : measure s = m
  induction m using Nat.strongRecOn generalizing s with
  | ind m ih =>
    cases ended : result s with
    | some r => exact ⟨r, .now ended⟩
    | none =>
      obtain ⟨inside, lower⟩ := progress s start ended
      obtain ⟨r, rest⟩ := ih _ (rank ▸ lower) inside rfl
      exact ⟨r, .later ended rest⟩

end Results

end Lts
