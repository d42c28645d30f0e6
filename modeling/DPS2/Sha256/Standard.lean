import DPS2.BlockHash.Absorb
import DPS2.Codec.LittleEndian
import Mathlib.Data.Nat.Prime.Defs
import Mathlib.Order.Nat

/-! SHA-256 as FIPS 180-2 defines it, on byte strings. The constants are the first 32 bits of the
fractional parts of square and cube roots of primes. -/
namespace DPS2.Sha256.Standard

open Codec

abbrev Word := BitVec 32

/-- The greatest number whose power e is at most n. -/
def root (e n : Nat) : Nat := Nat.findGreatest (fun r => r ^ e ≤ n) n

def fraction (e p : Nat) : Word := BitVec.ofNat 32 (root e (p * 2 ^ (32 * e)))

/-- The first 64 primes. -/
def primes : List Nat := (List.range 312).filter fun n => decide n.Prime

def constant (t : Nat) : Word := fraction 3 (primes.getD t 0)

def ch (x y z : Word) : Word := (x &&& y) ^^^ (~~~x &&& z)

def maj (x y z : Word) : Word := (x &&& y) ^^^ (x &&& z) ^^^ (y &&& z)

def upperSigma0 (x : Word) : Word := x.rotateRight 2 ^^^ x.rotateRight 13 ^^^ x.rotateRight 22

def upperSigma1 (x : Word) : Word := x.rotateRight 6 ^^^ x.rotateRight 11 ^^^ x.rotateRight 25

def lowerSigma0 (x : Word) : Word := x.rotateRight 7 ^^^ x.rotateRight 18 ^^^ x >>> 3

def lowerSigma1 (x : Word) : Word := x.rotateRight 17 ^^^ x.rotateRight 19 ^^^ x >>> 10

/-- A number of n bytes, the highest first. -/
def bigEndian (n x : Nat) : List (BitVec 8) := (encode n x).reverse

def ofBigEndian (bs : List (BitVec 8)) : Nat := decode bs.reverse

/-- The words W of the message schedule, from the words of the block. -/
def schedule (block : Nat → Word) (t : Nat) : Word :=
  if t < 16 then block t
  else lowerSigma1 (schedule block (t - 2)) + schedule block (t - 7) +
    lowerSigma0 (schedule block (t - 15)) + schedule block (t - 16)

/-- The working variables, and the intermediate hash value. -/
structure State where
  a : Word
  b : Word
  c : Word
  d : Word
  e : Word
  f : Word
  g : Word
  h : Word

namespace State

def round (s : State) (k w : Word) : State :=
  let t1 := s.h + upperSigma1 s.e + ch s.e s.f s.g + k + w
  let t2 := upperSigma0 s.a + maj s.a s.b s.c
  ⟨t1 + t2, s.a, s.b, s.c, s.d + t1, s.e, s.f, s.g⟩

def rounds (w : Nat → Word) : Nat → State → State
  | 0, s => s
  | t + 1, s => (rounds w t s).round (constant t) (w t)

def add (s t : State) : State :=
  ⟨s.a + t.a, s.b + t.b, s.c + t.c, s.d + t.d, s.e + t.e, s.f + t.f, s.g + t.g, s.h + t.h⟩

def words (s : State) : List Word := [s.a, s.b, s.c, s.d, s.e, s.f, s.g, s.h]

def initial : State :=
  let word (t : Nat) := fraction 2 (primes.getD t 0)
  ⟨word 0, word 1, word 2, word 3, word 4, word 5, word 6, word 7⟩

end State

def blockWord (block : List (BitVec 8)) (t : Nat) : Word :=
  BitVec.ofNat 32 (ofBigEndian (slice (4 * t) 4 block))

def compress (s : State) (block : List (BitVec 8)) : State :=
  s.add (State.rounds (schedule (blockWord block)) 64 s)

/-- As many zeroes as the message and nine bytes lack to a multiple of 64. -/
def zeroes (length : Nat) : Nat := (119 - length % 64) % 64

/-- A one bit, zeroes, and the length in bits as a number of 64 bits. -/
def padding (length : Nat) : List (BitVec 8) :=
  0x80 :: (List.replicate (zeroes length) 0 ++ bigEndian 8 (8 * length))

def pad (message : List (BitVec 8)) : List (BitVec 8) := message ++ padding message.length

/-- The state after a whole number of blocks. -/
def chain (blocks : List (BitVec 8)) : State :=
  BlockHash.compressBlocks compress 64 (blocks.length / 64) State.initial blocks

def output (s : State) : List (BitVec 8) := s.words.flatMap fun w => bigEndian 4 w.toNat

def digest (message : List (BitVec 8)) : List (BitVec 8) := output (chain (pad message))

theorem output_length (s : State) : (output s).length = 32 := by
  simp [output, State.words, bigEndian]

end DPS2.Sha256.Standard
