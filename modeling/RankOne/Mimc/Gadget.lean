import RankOne.Circuit
import RankOne.Mimc.Sponge

/-! The MiMC sponge as a circuit. -/
namespace RankOne

/-- Squares the result for each of the `n` low digits of the exponent, the highest first, and
multiplies it by the base for each one among them. -/
def Expr.powFrom (x : Expr) (exponent : Nat) (loc : String) : Nat → Expr → Circuit Expr
  | 0, res => pure res
  | n + 1, res => do
    let res ← res.square loc
    let res ← if exponent.testBit n then res.mul x "mimc.pow" loc else pure res
    x.powFrom exponent loc n res

def Expr.pow (x : Expr) (exponent : Nat) (loc : String) : Circuit Expr :=
  if exponent = 0 then pure 1 else x.powFrom exponent loc exponent.log2 x

namespace Mimc

def gadgetRounds (params : Params) : List Fr → Expr × Expr → Circuit (Expr × Expr)
  | [], state => pure state
  | [c], (left, right) => do
    let t ← (left + .const (params.key + c)).pow params.exponent.toNat gadgetLoc
    return (left, right + t)
  | c :: cs, (left, right) => do
    let t ← (left + .const (params.key + c)).pow params.exponent.toNat gadgetLoc
    gadgetRounds params cs (right + t, left)

def feistelGadget (params : Params) (state : Expr × Expr) : Circuit (Expr × Expr) :=
  gadgetRounds params params.constants state

/-- The left branches of a state and of its next permutations, `n` of them. -/
def squeezeGadget (params : Params) : Nat → Expr × Expr → Circuit (List Expr)
  | 0, _ => pure []
  | 1, state => pure [state.1]
  | n + 1, state => do
    let next ← feistelGadget params state
    return state.1 :: (← squeezeGadget params n next)

def spongeGadget (params : Params) (inputs : List Expr) (outputs : Nat) : Circuit (List Expr) := do
  let state ← inputs.foldlM (fun state x => feistelGadget params (state.1 + x, state.2)) (0, 0)
  squeezeGadget params outputs state

structure SpongeCircuit where
  params : Params
  inputs : UInt64
  outputs : UInt64
  deriving DecidableEq

namespace SpongeCircuit

def allocateInputs (self : SpongeCircuit) (input : Option (List Fr)) : Circuit (List Expr) :=
  let len := self.inputs.toNat
  match input with
  | some xs =>
    if xs.length = len then Circuit.computeMany .field len gadgetLoc fun _ => .ok xs
    else .fail (.runtime (.inputLength "MiMC input" len xs.length))
  | none => Circuit.computeMany .field len gadgetLoc fun _ => .error (.missingInput gadgetLoc)

def circuit (self : SpongeCircuit) (input : Option (List Fr)) : Circuit (List Expr) := do
  spongeGadget self.params (← self.allocateInputs input) self.outputs.toNat

end SpongeCircuit
end Mimc
end RankOne
