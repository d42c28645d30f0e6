import DPS2.Lts.Run

/-! Searching the values that a partial successor function goes through for the first one that
is accepted. -/
namespace Lts

variable {K : Type} {succ : K → Option K} {accepts : K → Bool}

/-- The values that come after this one, up to the last. -/
inductive Unfolds (succ : K → Option K) : K → List K → Prop where
  | last {k : K} (ended : succ k = none) : Unfolds succ k []
  | more {k k' : K} {ks : List K} (found : succ k = some k') (rest : Unfolds succ k' ks) :
      Unfolds succ k (k' :: ks)

theorem Unfolds.congr {k k' : K} {ks : List K} (unfolds : Unfolds succ k' ks)
    (same : succ k = succ k') : Unfolds succ k ks := by
  cases unfolds with
  | last ended => exact .last (same.trans ended)
  | more found rest => exact .more (same.trans found) rest

/-- The value at hand, those tested, and the one that has been returned. -/
structure Search (K : Type) where
  key : K
  tested : List K
  returned : Option K

def Search.start (k : K) : Search K := ⟨k, [], none⟩

def Search.next (succ : K → Option K) (accepts : K → Bool) (s : Search K) : Search K :=
  match succ s.key with
  | none => { s with returned := some s.key }
  | some k => ⟨k, s.tested ++ [k], if accepts k then some k else none⟩

def Search.result (s : Search K) : Option (List K × K) := s.returned.map fun k => (s.tested, k)

/-- The search tests the values up to the first that is accepted, and returns it; if there is
none it returns the last value. -/
theorem Unfolds.search_ends {k : K} {ks : List K} (unfolds : Unfolds succ k ks) (log : List K) :
    Ends (Search.next succ accepts) Search.result ⟨k, log, none⟩
      (log ++ (ks.takeWhile (fun k => !accepts k) ++ (ks.find? accepts).toList),
        (ks.find? accepts).getD (ks.getLastD k)) := by
  induction unfolds generalizing log with
  | last ended =>
    refine .later rfl (.now ?_)
    simp [Search.next, ended, Search.result]
  | @more k k' ks found rest ih =>
    refine .later rfl ?_
    cases accepted : accepts k' with
    | true =>
      refine .now ?_
      simp [Search.next, found, accepted, Search.result]
    | false =>
      have tail := ih (log ++ [k'])
      rw [List.append_assoc, List.singleton_append] at tail
      rw [List.getLastD_cons]
      simpa [Search.next, found, accepted] using tail

end Lts
