import DPS2.Blockchain.Blockchain
import DPS2.Lts.Level

/-! The calls of Blockchain on its vector of blocks. AddBlock, SneakPeekBlock, GetTopBlock and
GetTopHash take the last block without asking whether there is one. -/
namespace DPS2

open Lts

variable {T H : Type}

/-- The member blocks. -/
abbrev Blocks (T H : Type) := List (Block T H)

namespace Blocks

/-- The last element; on the empty vector the behaviour is undefined. -/
def back (blocks : Blocks T H) : Option (Block T H) := blocks.getLast?

section Calls

variable (hashFunc : T → H → H)

def genesis [Inhabited T] [Inhabited H] : Block T H :=
  let data : T := default
  let prevHash : H := default
  ⟨data, hashFunc data prevHash, prevHash⟩

/-- The constructor. -/
def new [Inhabited T] [Inhabited H] : Blocks T H := [] ++ [genesis hashFunc]

def sneakPeekBlock (blocks : Blocks T H) (data : T) : Option (Block T H) := do
  let top ← blocks.back
  let prevHash := top.hash
  return ⟨data, hashFunc data prevHash, prevHash⟩

def addBlock (blocks : Blocks T H) (data : T) : Option (Blocks T H) := do
  let top ← blocks.back
  let prevHash := top.hash
  let b := ⟨data, hashFunc data prevHash, prevHash⟩
  return blocks ++ [b]

def popBlock (blocks : Blocks T H) : Blocks T H :=
  if blocks.length > 0 then blocks.dropLast else blocks

/-- Out of range it returns NULL. -/
def getBlockFromIndex (blocks : Blocks T H) (index : Nat) : Option (Block T H) :=
  if inside : index < blocks.length then some (blocks.get ⟨index, inside⟩) else none

def getTopBlock (blocks : Blocks T H) : Option (Block T H) := blocks.back

def getTopHash (blocks : Blocks T H) : Option H := do
  let top ← blocks.back
  return top.hash

end Calls

end Blocks

inductive Call (T : Type) where
  | addBlock (data : T)
  | popBlock
  | sneakPeekBlock (data : T)
  | getTopHash
  | getTopBlock
  | getBlockFromIndex (index : Nat)

/-- What a call returns: nothing, a hash, or a block pointer, which may be NULL. -/
inductive Answer (T H : Type) where
  | void
  | hash (h : H)
  | block (b : Option (Block T H))

/-- One call. There is no result if it takes the last element of an empty vector. -/
def Blocks.call (hashFunc : T → H → H) (blocks : Blocks T H) :
    Call T → Option (Blocks T H × Answer T H)
  | .addBlock data => do return (← blocks.addBlock hashFunc data, .void)
  | .popBlock => some (blocks.popBlock, .void)
  | .sneakPeekBlock data => do
      return (blocks, .block (some (← blocks.sneakPeekBlock hashFunc data)))
  | .getTopHash => do return (blocks, .hash (← blocks.getTopHash))
  | .getTopBlock => do return (blocks, .block (some (← blocks.getTopBlock)))
  | .getBlockFromIndex index => some (blocks, .block (blocks.getBlockFromIndex index))

/-- The chain through a run of calls, none from the first call without a result on. -/
def stepCall (hashFunc : T → H → H) (s : Option (Blocks T H)) (c : Call T) :
    Option (Blocks T H) := do
  let blocks ← s
  let (blocks', _) ← blocks.call hashFunc c
  return blocks'

/-- The chain is there, starts with the genesis block and is linked. -/
def KeepsGenesis [Inhabited T] [Inhabited H] (hashFunc : T → H → H) (s : Option (Blocks T H)) :
    Prop :=
  ∃ blocks, s = some blocks ∧ blocks.head? = some (Blocks.genesis hashFunc) ∧
    Linked hashFunc default blocks

namespace Call

def adds : Call T → Nat
  | addBlock _ => 1
  | _ => 0

def pops : Call T → Nat
  | popBlock => 1
  | _ => 0

/-- At no point more blocks have been popped than added. -/
def Covered (calls : List (Call T)) : Prop :=
  ∀ n, total pops (calls.take n) ≤ total adds (calls.take n)

end Call

/- The chain with its links as a field makes the same calls. -/

section Refinement

variable [Inhabited H] {hashFunc : T → H → H} {bc : Blockchain hashFunc}

def Blockchain.after (bc : Blockchain hashFunc) : Call T → Blockchain hashFunc
  | .addBlock data => bc.addBlock data
  | .popBlock => bc.upTo (bc.size - 1)
  | _ => bc

def Blockchain.answer (bc : Blockchain hashFunc) : Call T → Answer T H
  | .addBlock _ => .void
  | .popBlock => .void
  | .sneakPeekBlock data => .block (some (bc.sneakPeekBlock data))
  | .getTopHash => .hash bc.getTopHash
  | .getTopBlock => .block (bc.getBlockFromIndex (bc.size - 1))
  | .getBlockFromIndex index => .block (bc.getBlockFromIndex index)

omit [Inhabited H] in
theorem back_last {blocks : Blocks T H} (filled : blocks ≠ []) (prev : H) :
    ∃ top, blocks.back = some top ∧ blocks[blocks.length - 1]? = some top ∧
      top.hash = lastHash prev blocks := by
  obtain ⟨init, top, rfl⟩ := List.eq_nil_or_concat blocks |>.resolve_left filled
  refine ⟨top, ?_, ?_, ?_⟩
  · simp [Blocks.back]
  · simp
  · simp [lastHash_append, lastHash]

omit [Inhabited H] in
theorem filled_of_head {blocks : Blocks T H} {b : Block T H} (first : blocks.head? = some b) :
    blocks ≠ [] := by
  rintro rfl
  cases first

theorem popBlock_blocks : Blocks.popBlock bc.blocks = (bc.upTo (bc.size - 1)).blocks := by
  unfold Blocks.popBlock
  split
  · exact List.dropLast_eq_take
  · rename_i empty
    have none : bc.blocks = [] := List.length_eq_zero_iff.mp (by omega)
    simp [Blockchain.upTo, none]

theorem getBlockFromIndex_blocks (index : Nat) :
    Blocks.getBlockFromIndex bc.blocks index = bc.getBlockFromIndex index := by
  unfold Blocks.getBlockFromIndex Blockchain.getBlockFromIndex
  split
  · rename_i inside
    exact (List.getElem?_eq_getElem inside).symm
  · rename_i outside
    exact (List.getElem?_eq_none (by omega)).symm

/-- Before any call on an empty chain, the vector does what the chain does. In particular
GetTopBlock is then the same as GetBlockFromIndex(Size() - 1). -/
theorem call_refines (filled : bc.blocks ≠ []) (c : Call T) :
    Blocks.call hashFunc bc.blocks c = some ((bc.after c).blocks, bc.answer c) := by
  obtain ⟨top, last, index, hash⟩ := back_last filled (default : H)
  cases c with
  | addBlock data =>
    simp only [Blocks.call, Blocks.addBlock, last, Option.bind_eq_bind, Option.bind_some,
      Option.pure_def, hash]
    rfl
  | popBlock =>
    rw [Blocks.call, popBlock_blocks]
    rfl
  | sneakPeekBlock data =>
    simp only [Blocks.call, Blocks.sneakPeekBlock, last, Option.bind_eq_bind, Option.bind_some,
      Option.pure_def, hash]
    rfl
  | getTopHash =>
    simp only [Blocks.call, Blocks.getTopHash, last, Option.bind_eq_bind, Option.bind_some,
      Option.pure_def, hash]
    rfl
  | getTopBlock =>
    have same : bc.getBlockFromIndex (bc.size - 1) = some top := index
    rw [Blocks.call, Blocks.getTopBlock, last, Blockchain.answer, same]
    rfl
  | getBlockFromIndex index =>
    rw [Blocks.call, getBlockFromIndex_blocks]
    rfl

theorem stepCall_after {bc : Blockchain hashFunc} (filled : bc.blocks ≠ []) (c : Call T) :
    stepCall hashFunc (some bc.blocks) c = some (bc.after c).blocks := by
  unfold stepCall
  rw [Option.bind_eq_bind, Option.bind_some, call_refines filled]
  rfl

theorem after_length {bc : Blockchain hashFunc} (filled : bc.blocks ≠ []) (c : Call T) :
    (bc.after c).blocks.length + c.pops = bc.blocks.length + c.adds := by
  have one : 0 < bc.blocks.length := List.length_pos_iff.mpr filled
  cases c with
  | addBlock data => exact bc.size_addBlock data
  | popBlock =>
    have popped : (bc.upTo (bc.size - 1)).size = bc.size - 1 := Blockchain.size_upTo (by omega)
    unfold Blockchain.size at popped
    simp only [Blockchain.after, Call.pops, Call.adds, Blockchain.size]
    omega
  | _ => rfl

theorem after_head {bc : Blockchain hashFunc} {b : Block T H} (first : bc.blocks.head? = some b)
    (c : Call T) :
    (bc.after c).blocks.head? = some b ↔ c.pops < bc.blocks.length + c.adds := by
  have filled := filled_of_head first
  have one : 0 < bc.blocks.length := List.length_pos_iff.mpr filled
  cases c with
  | addBlock data =>
    constructor
    · intro _
      exact Nat.add_pos_left one _
    · intro _
      simp [Blockchain.after, Blockchain.addBlock, List.head?_append, first]
  | popBlock =>
    constructor
    · intro kept
      have popped := after_length filled .popBlock
      have left := List.length_pos_iff.mpr (filled_of_head kept)
      omega
    · intro two
      simp only [Call.pops, Call.adds] at two
      simp only [Blockchain.after, Blockchain.upTo, Blockchain.size, List.head?_take, first]
      exact if_neg (by omega)
  | _ => exact ⟨fun _ => Nat.add_pos_left one _, fun _ => first⟩

end Refinement

section Genesis

variable [Inhabited T] [Inhabited H] {hashFunc : T → H → H}

theorem keepsGenesis_iff {s : Option (Blocks T H)} :
    KeepsGenesis hashFunc s ↔
      ∃ bc : Blockchain hashFunc, s = some bc.blocks ∧
        bc.blocks.head? = some (Blocks.genesis hashFunc) := by
  constructor
  · rintro ⟨blocks, rfl, first, linked⟩
    exact ⟨⟨blocks, linked⟩, rfl, first⟩
  · rintro ⟨bc, rfl, first⟩
    exact ⟨bc.blocks, rfl, first, bc.linked⟩

theorem new_blocks :
    (Blocks.new hashFunc : Blocks T H) = (Blockchain.new : Blockchain hashFunc).blocks := rfl

theorem new_keepsGenesis : KeepsGenesis hashFunc (some (Blocks.new hashFunc : Blocks T H)) :=
  keepsGenesis_iff.mpr ⟨Blockchain.new, congrArg some new_blocks, rfl⟩

/-- A call that may take away a block needs one more than it takes. -/
def Spares (s : Option (Blocks T H)) (c : Call T) : Prop :=
  c.pops < (s.getD []).length + c.adds

/-- From a good state a call leads to a good state exactly if it spares the genesis block. -/
theorem stepCall_keeps_iff {s : Option (Blocks T H)} (kept : KeepsGenesis hashFunc s)
    (c : Call T) : KeepsGenesis hashFunc (stepCall hashFunc s c) ↔ Spares s c := by
  obtain ⟨bc, rfl, first⟩ := keepsGenesis_iff.mp kept
  rw [stepCall_after (filled_of_head first)]
  unfold Spares
  rw [Option.getD_some, ← after_head first]
  constructor
  · rintro ⟨blocks, same, head, _⟩
    cases same
    exact head
  · intro head
    exact keepsGenesis_iff.mpr ⟨bc.after c, rfl, head⟩

theorem stepCall_level {s : Option (Blocks T H)} (kept : KeepsGenesis hashFunc s) (c : Call T) :
    ((stepCall hashFunc s c).getD []).length + c.pops = (s.getD []).length + c.adds := by
  obtain ⟨bc, rfl, first⟩ := keepsGenesis_iff.mp kept
  rw [stepCall_after (filled_of_head first)]
  exact after_length (filled_of_head first) c

theorem spares_iff_covered (hashFunc : T → H → H) (calls : List (Call T)) :
    Throughout (stepCall hashFunc) Spares (some (Blocks.new hashFunc)) calls ↔
      Call.Covered calls := by
  have level : Throughout (stepCall hashFunc) Spares (some (Blocks.new hashFunc)) calls ↔
      StaysPositive Call.adds Call.pops 1 calls := by
    apply @throughout_iff_staysPositive _ _ _ _ _ _ (KeepsGenesis hashFunc)
      (fun s => (s.getD []).length) _ _ _ _ new_keepsGenesis
    · rintro _ ⟨blocks, rfl, first, _⟩
      exact List.length_pos_iff.mpr (filled_of_head first)
    · intro s c _
      exact Iff.rfl
    · intro s c kept spares
      exact ⟨(stepCall_keeps_iff kept c).mpr spares, stepCall_level kept c⟩
  rw [level]
  exact forall_congr' fun n => by omega

/-- The chain keeps its genesis block and its links through a run, and no call of the run takes
the last element of an empty vector, exactly if never more blocks are popped than added. -/
theorem genesis_kept_iff (hashFunc : T → H → H) (calls : List (Call T)) :
    (∀ n, KeepsGenesis hashFunc
      (run (stepCall hashFunc) (some (Blocks.new hashFunc)) (calls.take n))) ↔
    Call.Covered calls := by
  rw [← spares_iff_covered hashFunc]
  apply @always_iff _ _ _ _ (fun _ => True)
  · intro _ _ _
    trivial
  · intro s c _ kept
    exact stepCall_keeps_iff kept c
  · trivial
  · exact new_keepsGenesis

/-- PopBlock after the constructor removes the genesis block, and AddBlock after it takes the
last element of the empty vector. -/
theorem genesis_popped :
    ¬ (∀ (calls : List (Call (BitVec 8))) (n : Nat),
      KeepsGenesis List.cons
        (run (stepCall List.cons) (some (Blocks.new List.cons)) (calls.take n))) ∧
    run (stepCall List.cons) (some (Blocks.new List.cons)) [Call.popBlock] =
      some ([] : Blocks (BitVec 8) (List (BitVec 8))) ∧
    run (stepCall List.cons) (some (Blocks.new List.cons : Blocks (BitVec 8) (List (BitVec 8))))
      [.popBlock, .addBlock 1] = none := by
  refine ⟨?_, rfl, rfl⟩
  intro always
  obtain ⟨_, same, first, _⟩ := always [.popBlock] 1
  cases same
  cases first

end Genesis

end DPS2
