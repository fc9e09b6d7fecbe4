import RankOne.Output
import RankOne.Session

/-! Compiled circuits. A circuit is compiled once, without an input, and then run on inputs to
generate witnesses, which are checked against every compiled row. -/
namespace RankOne

/-- A circuit and its rows. The input is missing where no witness is computed. -/
structure CompiledCircuit (ι β : Type) where
  circuit : Option ι → Build β
  system : ConstraintSystem

def Build.start (work : Build α) (mode : Mode) : Except Error α × Session :=
  work.run.run (.start mode)

namespace CompiledCircuit

def compile (circuit : Option ι → Build β) : Except Error (CompiledCircuit ι β) :=
  match (circuit none).start .compile with
  | (.ok _, s) => .ok ⟨circuit, s.system⟩
  | (.error e, _) => .error e

/-- The number of variables that a run without input allocates. -/
def countVariables (circuit : Option ι → Build β) (mode : Mode) : Except Error Nat :=
  match (circuit none).start mode with
  | (.ok _, s) => .ok s.nextVar
  | (.error e, _) => .error e

def generateWitness [CircuitOutput β γ] (compiled : CompiledCircuit ι β) (input : ι) :
    Except Error (Witness × γ) :=
  match (compiled.circuit (some input)).start (.witness true) with
  | (.error e, _) => .error e
  | (.ok out, s) =>
    match CircuitOutput.read s.values out with
    | .error e => .error (.runtime e)
    | .ok value =>
      match compiled.system.check s.values with
      | .error e => .error (.runtime e)
      | .ok () => .ok (s.values, value)

def expectOutput [CircuitOutput β γ] [BEq γ] [DebugText γ]
    (compiled : CompiledCircuit ι β) (input : ι) (expected : γ) : Except Error Witness :=
  match compiled.generateWitness input with
  | .error e => .error e
  | .ok (witness, actual) =>
    if actual == expected then .ok witness
    else .error (.outputMismatch (DebugText.text expected) (DebugText.text actual))

end CompiledCircuit
end RankOne
