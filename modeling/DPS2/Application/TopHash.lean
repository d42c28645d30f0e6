import DPS2.Application.Votes

/-! What an equal prev_hash means. The peers compare only top hashes before they accept a
block; without collisions an equal top hash is an equal history. -/
namespace DPS2.Application

open P2P ProofOfWork

variable {sha256 : Bytes → Bytes}

/-- The chain after the constructor and calls of AddBlock with these data. -/
def built (sha256 : Bytes → Bytes) (data : List Transactions) :
    Blockchain (sha256FromDataAndHash sha256) :=
  data.foldl Blockchain.addBlock Blockchain.new

theorem data_built (data : List Transactions) : (built sha256 data).data = default :: data := by
  rw [built, Blockchain.data_foldl_addBlock, Blockchain.data_new, List.singleton_append]

theorem built_injective (free : CollisionFree sha256) {xs ys : List Transactions}
    (same : (built sha256 xs).getTopHash = (built sha256 ys).getTopHash) : xs = ys := by
  have data := congrArg Blockchain.data (Blockchain.eq_of_getTopHash free.chain same)
  rw [data_built, data_built] at data
  exact List.tail_eq_of_cons_eq data

theorem top_hash_commits (free : CollisionFree sha256) (xs ys : List Transactions) :
    ((built sha256 xs).getTopHash = (built sha256 ys).getTopHash →
      (built sha256 xs).size = (built sha256 ys).size ∧
      ∀ i, (built sha256 xs).getBlockFromIndex i = (built sha256 ys).getBlockFromIndex i) ∧
    ∀ i b, (built sha256 xs).getBlockFromIndex i = some b →
      b.hash = sha256FromDataAndHash sha256 b.data b.prevHash ∧
      (i = 0 → b.prevHash = []) ∧
      ∀ next, (built sha256 xs).getBlockFromIndex (i + 1) = some next →
        next.prevHash = b.hash := by
  constructor
  · intro same
    rw [built_injective free same]
    exact ⟨rfl, fun _ => rfl⟩
  · exact fun i b found => Blockchain.block_links found

theorem echo_chain_commits :
    let bc := built HashCash.echo [default, default]
    (bc.size = bc.size ∧ ∀ i, bc.getBlockFromIndex i = bc.getBlockFromIndex i) ∧
    ∀ i b, bc.getBlockFromIndex i = some b →
      b.hash = sha256FromDataAndHash HashCash.echo b.data b.prevHash ∧
      (i = 0 → b.prevHash = []) ∧
      ∀ next, bc.getBlockFromIndex (i + 1) = some next → next.prevHash = b.hash :=
  have commits := top_hash_commits echo_collisionFree [default, default] [default, default]
  ⟨commits.1 rfl, commits.2⟩

end DPS2.Application
