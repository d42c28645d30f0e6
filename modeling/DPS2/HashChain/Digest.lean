import Mathlib.Data.List.Induction

/-! The digest of a sequence: every entry is hashed together with the digest before it.
Without collisions, and with a start value that no hash returns, it commits to the
whole sequence, also to its length. -/
namespace HashChain

variable {T H : Type}

def digest (h : T → H → H) (start : H) (xs : List T) : H :=
  xs.foldl (fun prev x => h x prev) start

/-- No two inputs share a hash, and no hash is the start value. -/
structure NoCollisions (h : T → H → H) (start : H) : Prop where
  injective : ∀ x y p q, h x p = h y q → x = y ∧ p = q
  fresh : ∀ x p, h x p ≠ start

variable {h : T → H → H} {start : H}

theorem digest_snoc (xs : List T) (x : T) :
    digest h start (xs ++ [x]) = h x (digest h start xs) := by
  simp [digest]

theorem digest_injective (nc : NoCollisions h start) :
    ∀ xs ys : List T, digest h start xs = digest h start ys → xs = ys := by
  intro xs
  induction xs using List.reverseRecOn with
  | nil =>
    intro ys same
    cases ys using List.reverseRecOn with
    | nil => rfl
    | append_singleton ys y =>
      rw [digest_snoc] at same
      exact absurd same.symm (nc.fresh y _)
  | append_singleton xs x ih =>
    intro ys same
    cases ys using List.reverseRecOn with
    | nil =>
      rw [digest_snoc] at same
      exact absurd same (nc.fresh x _)
    | append_singleton ys y =>
      rw [digest_snoc, digest_snoc] at same
      obtain ⟨rfl, rest⟩ := nc.injective x y _ _ same
      rw [ih ys rest]

end HashChain
