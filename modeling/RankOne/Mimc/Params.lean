import RankOne.Field
import RankOne.Keccak

/-! The MiMC permutation in its Feistel form. Its parameters are an exponent, a key and one constant
per round. -/
namespace RankOne.Mimc

inductive ParamsError where
  | zeroRounds
  | constantsLength (expected got : Nat)
  | evenExponent (exponent : Nat)
  deriving DecidableEq, Repr

def ParamsError.message : ParamsError → String
  | zeroRounds => "a MiMC permutation needs at least one round"
  | constantsLength expected got =>
    s!"expected one round constant per round ({expected}), got {got}"
  | evenExponent exponent =>
    s!"the exponent {exponent} is even, x -> x^{exponent} is not a permutation"

/-- A parameter set, which has a round, a constant per round and an odd exponent. -/
structure Params where
  rounds : UInt64
  exponent : UInt64
  key : Fr
  constants : List Fr
  rounds_pos : 0 < rounds.toNat
  length_constants : constants.length = rounds.toNat
  odd_exponent : exponent.toNat % 2 = 1
  deriving DecidableEq

/-- The digest of the seed, its digest, and so on, `n` of them. -/
def digestChain (hash : List UInt8 → List UInt8) (seed : List UInt8) : Nat → List (List UInt8)
  | 0 => []
  | n + 1 => hash seed :: digestChain hash (hash seed) n

/-- Round constants derived from a seed: the iterated digests read most significant byte
first, with zero for the first and the last round. -/
def deriveConstants (hash : List UInt8 → List UInt8) (seed : List UInt8) (rounds : Nat) :
    List Fr :=
  (digestChain hash seed rounds).zipIdx.map fun (digest, i) =>
    if i = 0 ∨ i + 1 = rounds then 0 else Fr.ofBytesMsb digest

def roundConstants (seed : List UInt8) (rounds : Nat) : List Fr :=
  deriveConstants Keccak.digest seed rounds

namespace Params

/-- Checks the round count, then the table of constants, then the exponent. -/
def create (rounds exponent : UInt64) (key : Fr) (constants : List Fr) :
    Except ParamsError Params :=
  if hr : 0 < rounds.toNat then
    if hl : constants.length = rounds.toNat then
      if he : exponent.toNat % 2 = 1 then
        .ok ⟨rounds, exponent, key, constants, hr, hl, he⟩
      else .error (.evenExponent exponent.toNat)
    else .error (.constantsLength rounds.toNat constants.length)
  else .error .zeroRounds

def ofSeed (seed : List UInt8) (rounds exponent : UInt64) : Except ParamsError Params :=
  create rounds exponent 0 (roundConstants seed rounds.toNat)

def spongeSeed : List UInt8 := [0x6d, 0x69, 0x6d, 0x63, 0x73, 0x70, 0x6f, 0x6e, 0x67, 0x65]

@[simp] theorem length_digestChain (hash : List UInt8 → List UInt8) (seed : List UInt8)
    (n : Nat) : (digestChain hash seed n).length = n := by
  induction n generalizing seed with
  | zero => rfl
  | succ n ih => simp [digestChain, ih]

@[simp] theorem length_roundConstants (seed : List UInt8) (rounds : Nat) :
    (roundConstants seed rounds).length = rounds := by
  simp [roundConstants, deriveConstants]

/-- 220 rounds of the fifth power. -/
def sponge : Params where
  rounds := 220
  exponent := 5
  key := 0
  constants := roundConstants spongeSeed 220
  rounds_pos := by decide
  length_constants := length_roundConstants spongeSeed 220
  odd_exponent := by decide

def withKey (params : Params) (key : Fr) : Params := { params with key }

def round (params : Params) (constant x : Fr) : Fr :=
  (x + params.key + constant).pow params.exponent.toNat

def roundAt? (params : Params) (r : Nat) (x : Fr) : Option Fr :=
  params.constants[r]?.map (params.round · x)

end Params

/-- One round per constant. The branches are exchanged after every round but the last. -/
def feistelRounds (params : Params) : List Fr → Fr × Fr → Fr × Fr
  | [], state => state
  | [c], (left, right) => (left, right + params.round c left)
  | c :: cs, (left, right) => feistelRounds params cs (right + params.round c left, left)

def feistel (params : Params) (state : Fr × Fr) : Fr × Fr :=
  feistelRounds params params.constants state

end RankOne.Mimc
