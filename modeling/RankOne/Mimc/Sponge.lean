import RankOne.Mimc.Params

/-! The MiMC sponge of rate one. Its state is the two branches of the permutation; an element
is absorbed into the left branch, and outputs are left branches. -/
namespace RankOne.Mimc

inductive Phase where
  | absorbing
  | squeezed
  deriving DecidableEq, Repr

structure Sponge where
  state : Fr × Fr
  phase : Phase
  deriving DecidableEq

namespace Sponge

def start : Sponge := ⟨(0, 0), .absorbing⟩

def absorbOne (params : Params) (state : Fr × Fr) (x : Fr) : Fr × Fr :=
  feistel params (state.1 + x, state.2)

def absorb (params : Params) (sponge : Sponge) (xs : List Fr) : Sponge :=
  ⟨xs.foldl (absorbOne params) sponge.state, .absorbing⟩

/-- The first output after absorbing needs no permutation, each later one follows another. -/
def squeeze (params : Params) (sponge : Sponge) : Fr × Sponge :=
  let state := match sponge.phase with
    | .absorbing => sponge.state
    | .squeezed => feistel params sponge.state
  (state.1, ⟨state, .squeezed⟩)

def squeezeMany (params : Params) : Nat → Sponge → List Fr
  | 0, _ => []
  | n + 1, sponge =>
    let (out, next) := sponge.squeeze params
    out :: squeezeMany params n next

def reset (sponge : Sponge) : Sponge :=
  { sponge with state := (0, 0), phase := .absorbing }

/-- What a sponge can be asked for. -/
inductive Call where
  | absorb (xs : List Fr)
  | squeeze
  | reset
  deriving DecidableEq

/-- Answers one call, with an output if the sponge is squeezed. -/
def call (params : Params) (sponge : Sponge) : Call → Option Fr × Sponge
  | .absorb xs => (none, sponge.absorb params xs)
  | .squeeze =>
    let (out, next) := sponge.squeeze params
    (some out, next)
  | .reset => (none, sponge.reset)

def after (params : Params) (sponge : Sponge) (calls : List Call) : Sponge :=
  calls.foldl (fun sponge call => (sponge.call params call).2) sponge

def outputs (params : Params) : Sponge → List Call → List Fr
  | _, [] => []
  | sponge, call :: calls =>
    let (out, next) := sponge.call params call
    out.toList ++ outputs params next calls

end Sponge

def hash (params : Params) (inputs : List Fr) (outputs : Nat) : List Fr :=
  (Sponge.start.absorb params inputs).squeezeMany params outputs

end RankOne.Mimc
