import DPS2.HashChain.Digest

/-! Blocks and the linear chain that stores them. A chain carries the fact that its
blocks are linked, so two chains with the same data are the same chain. -/
namespace DPS2

open HashChain

structure Block (T H : Type) where
  data : T
  hash : H
  prevHash : H
  deriving DecidableEq

variable {T H : Type}

/-- Each block stores the hash before it and the hash of its data with that hash. -/
def Linked (hashFunc : T → H → H) : H → List (Block T H) → Prop
  | _, [] => True
  | prev, b :: bs => b.prevHash = prev ∧ b.hash = hashFunc b.data prev ∧ Linked hashFunc b.hash bs

/-- The hash of the last block, or the given one before any block. -/
def lastHash : H → List (Block T H) → H
  | prev, [] => prev
  | _, b :: bs => lastHash b.hash bs

section Links

variable {hashFunc : T → H → H}

theorem lastHash_append (prev : H) (bs cs : List (Block T H)) :
    lastHash prev (bs ++ cs) = lastHash (lastHash prev bs) cs := by
  induction bs generalizing prev with
  | nil => rfl
  | cons b bs ih => exact ih b.hash

theorem linked_append (prev : H) (bs cs : List (Block T H)) :
    Linked hashFunc prev (bs ++ cs) ↔
      Linked hashFunc prev bs ∧ Linked hashFunc (lastHash prev bs) cs := by
  induction bs generalizing prev with
  | nil => simp [Linked, lastHash]
  | cons b bs ih => simp only [List.cons_append, Linked, lastHash, ih, and_assoc]

theorem lastHash_digest {prev : H} {bs : List (Block T H)} (linked : Linked hashFunc prev bs) :
    lastHash prev bs = digest hashFunc prev (bs.map Block.data) := by
  induction bs generalizing prev with
  | nil => rfl
  | cons b bs ih =>
    obtain ⟨_, hash, rest⟩ := linked
    rw [lastHash, ih rest, hash]
    rfl

theorem linked_unique {prev : H} {bs cs : List (Block T H)} (hb : Linked hashFunc prev bs)
    (hc : Linked hashFunc prev cs) (same : bs.map Block.data = cs.map Block.data) : bs = cs := by
  induction bs generalizing prev cs with
  | nil =>
    cases cs with
    | nil => rfl
    | cons c cs => simp at same
  | cons b bs ih =>
    cases cs with
    | nil => simp at same
    | cons c cs =>
      simp only [List.map_cons, List.cons.injEq] at same
      obtain ⟨⟨hprev, hhash, hrest⟩, cprev, chash, crest⟩ := hb, hc
      obtain ⟨data, hash, prevHash⟩ := b
      obtain ⟨data', hash', prevHash'⟩ := c
      obtain ⟨heads, tails⟩ := same
      simp only at heads hprev hhash cprev chash hrest crest
      subst heads hprev hhash cprev chash
      rw [ih hrest crest tails]

end Links

/-- The constructor's argument hash_func is a parameter of the type. The empty vector
is a value as well, since PopBlock can reach it. -/
structure Blockchain [Inhabited H] (hashFunc : T → H → H) where
  blocks : List (Block T H)
  linked : Linked hashFunc default blocks

namespace Blockchain

variable [Inhabited H] {hashFunc : T → H → H}

def size (bc : Blockchain hashFunc) : Nat := bc.blocks.length

def getTopHash (bc : Blockchain hashFunc) : H := lastHash default bc.blocks

def getBlockFromIndex (bc : Blockchain hashFunc) (index : Nat) : Option (Block T H) :=
  bc.blocks[index]?

def sneakPeekBlock (bc : Blockchain hashFunc) (data : T) : Block T H :=
  let prevHash := bc.getTopHash
  ⟨data, hashFunc data prevHash, prevHash⟩

def addBlock (bc : Blockchain hashFunc) (data : T) : Blockchain hashFunc where
  blocks :=
    let prevHash := bc.getTopHash
    bc.blocks ++ [⟨data, hashFunc data prevHash, prevHash⟩]
  linked := (linked_append _ _ _).mpr ⟨bc.linked, rfl, rfl, trivial⟩

/-- The chain after the constructor: the default block with its hash filled in. -/
def new [Inhabited T] : Blockchain hashFunc where
  blocks := [⟨default, hashFunc default default, default⟩]
  linked := ⟨rfl, rfl, trivial⟩

/- The chain as the sequence of its data, and its prefixes. -/

def data (bc : Blockchain hashFunc) : List T := bc.blocks.map Block.data

def upTo (bc : Blockchain hashFunc) (n : Nat) : Blockchain hashFunc where
  blocks := bc.blocks.take n
  linked := by
    have whole := bc.linked
    rw [← List.take_append_drop n bc.blocks, linked_append] at whole
    exact whole.1

variable (bc cc : Blockchain hashFunc) (x y : T)

@[simp] theorem size_addBlock : (bc.addBlock x).size = bc.size + 1 := by
  simp [size, addBlock]

@[simp] theorem data_addBlock : (bc.addBlock x).data = bc.data ++ [x] := by
  simp [data, addBlock]

@[simp] theorem data_new [Inhabited T] : (new : Blockchain hashFunc).data = [default] := rfl

theorem data_foldl_addBlock (xs : List T) : (xs.foldl addBlock bc).data = bc.data ++ xs := by
  induction xs generalizing bc with
  | nil => simp
  | cons x xs ih =>
    rw [List.foldl_cons, ih, data_addBlock, List.append_assoc, List.singleton_append]

@[simp] theorem getTopHash_addBlock :
    (bc.addBlock x).getTopHash = hashFunc x bc.getTopHash := by
  simp only [getTopHash, addBlock, lastHash_append, lastHash]

@[simp] theorem data_length : bc.data.length = bc.size := by simp [data, size]

theorem addBlock_blocks : (bc.addBlock x).blocks = bc.blocks ++ [bc.sneakPeekBlock x] := rfl

theorem eq_of_data (same : bc.data = cc.data) : bc = cc := by
  have blocks := linked_unique bc.linked cc.linked same
  cases bc
  cases cc
  simp only at blocks
  subst blocks
  rfl

theorem getTopHash_digest : bc.getTopHash = digest hashFunc default bc.data :=
  lastHash_digest bc.linked

section Commitment

variable {bc cc x y} (nc : NoCollisions hashFunc default)

include nc

theorem eq_of_getTopHash (same : bc.getTopHash = cc.getTopHash) : bc = cc := by
  rw [getTopHash_digest, getTopHash_digest] at same
  exact eq_of_data bc cc (digest_injective nc _ _ same)

/-- The hash of a proposed block determines its data and the chain it was made on. -/
theorem sneakPeekBlock_hash (same : (bc.sneakPeekBlock x).hash = (cc.sneakPeekBlock y).hash) :
    bc = cc ∧ x = y := by
  obtain ⟨data, top⟩ := nc.injective _ _ _ _ same
  exact ⟨eq_of_getTopHash nc top, data⟩

theorem sneakPeekBlock_prevHash
    (same : (bc.sneakPeekBlock x).prevHash = cc.getTopHash) : bc = cc :=
  eq_of_getTopHash nc same

end Commitment

section Prefix

@[simp] theorem data_upTo (n : Nat) : (bc.upTo n).data = bc.data.take n := by
  simp [data, upTo, List.map_take]

theorem upTo_size : bc.upTo bc.size = bc := by
  apply eq_of_data
  simp [← data_length]

variable {bc}

theorem size_upTo {n : Nat} (h : n ≤ bc.size) : (bc.upTo n).size = n := by
  rw [size] at h
  simp only [size, upTo, List.length_take, Nat.min_eq_left h]

theorem upTo_addBlock {n : Nat} (h : n ≤ bc.size) : (bc.addBlock x).upTo n = bc.upTo n := by
  apply eq_of_data
  simp only [data, upTo, addBlock_blocks]
  rw [List.take_append_of_le_length h]

theorem upTo_succ {n : Nat} {b : Block T H} (h : bc.getBlockFromIndex n = some b) :
    bc.upTo (n + 1) = (bc.upTo n).addBlock b.data ∧ b = (bc.upTo n).sneakPeekBlock b.data := by
  have blocks : (bc.upTo (n + 1)).blocks = (bc.upTo n).blocks ++ [b] := by
    simp only [upTo, List.take_add_one]
    rw [getBlockFromIndex] at h
    rw [h]
    rfl
  have chain : bc.upTo (n + 1) = (bc.upTo n).addBlock b.data := by
    apply eq_of_data
    rw [data_addBlock, data, blocks, List.map_append]
    rfl
  refine ⟨chain, ?_⟩
  have last := congrArg Blockchain.blocks chain
  rw [blocks, addBlock_blocks] at last
  exact List.head_eq_of_cons_eq (List.append_cancel_left last)

theorem getTopHash_upTo_succ {n : Nat} {b : Block T H} (h : bc.getBlockFromIndex n = some b) :
    (bc.upTo (n + 1)).getTopHash = b.hash := by
  obtain ⟨chain, block⟩ := upTo_succ h
  rw [chain, getTopHash_addBlock, block]
  rfl

/-- The hash of a block is that of its data and prev_hash, the first prev_hash is the
default, and each block stores the hash of the one before it. -/
theorem block_links {n : Nat} {b : Block T H} (h : bc.getBlockFromIndex n = some b) :
    b.hash = hashFunc b.data b.prevHash ∧ (n = 0 → b.prevHash = default) ∧
      ∀ next, bc.getBlockFromIndex (n + 1) = some next → next.prevHash = b.hash := by
  obtain ⟨_, made⟩ := upTo_succ h
  refine ⟨?_, ?_, fun next found => ?_⟩
  · rw [made]
    rfl
  · rintro rfl
    rw [made]
    rfl
  · obtain ⟨_, after⟩ := upTo_succ found
    rw [after, ← getTopHash_upTo_succ h]
    rfl

theorem getBlockFromIndex_upTo {k n : Nat} (below : k < n) :
    (bc.upTo n).getBlockFromIndex k = bc.getBlockFromIndex k := by
  simp [getBlockFromIndex, upTo, below]

theorem getBlockFromIndex_lt {n : Nat} {b : Block T H} (h : bc.getBlockFromIndex n = some b) :
    n < bc.size := by
  rw [getBlockFromIndex] at h
  exact (List.getElem?_eq_some_iff.mp h).1

theorem getBlockFromIndex_eq_none {n : Nat} : bc.getBlockFromIndex n = none ↔ bc.size ≤ n := by
  simp [getBlockFromIndex, size]

end Prefix

end Blockchain

end DPS2
