import RankOne.Program.Operation
import RankOne.Program.Output
import RankOne.Session

/-! Programs run step by step on a session. A step that fails leaves the session as it was when
the failure was met, and the steps after it still run. -/
namespace RankOne.Program

mutual

/-- The value of a result made of constants, with unit for a part that depends on variables. -/
def Value.constant : Value → OutputValue
  | .unit => .unit
  | .field x => x.constant?.elim .unit .field
  | .bit b => b.constant?.elim .unit .bit
  | .bits bs => (Bits.constant? bs).elim .unit .bits
  | .word w => w.constant?.elim .unit .word
  | .list vs => .list (Value.constants vs)

def Value.constants : List Value → List OutputValue
  | [] => []
  | v :: vs => v.constant :: Value.constants vs

end

/-- The value of a result as a session knows it: under its witness, or else by constants. -/
def Value.known (s : Session) (v : Value) : Except RuntimeError OutputValue :=
  if s.hasWitness then v.output.read s.values else .ok v.constant

/-- An operation, a change of the session, or a question about the results so far. -/
inductive Task where
  | step (step : Step)
  /-- Allocates a variable without a value. -/
  | reserve
  | setChecked (checked : Bool)
  | terms (e : Operand)
  | read (e : Operand)
  | value (x : Ref)
  | bitConstant (a : Ref)
  | bitsLength (a : Ref)

inductive Report where
  | terms (x : Expr)
  | value (v : OutputValue)
  | length (n : Nat)

def Step.run (results : Results) (step : Step) : Build Value :=
  (step.operation.circuit results step.loc).build

/-- Gives the result of a task, which is unit for a question, and the answer to a question. -/
def Task.run (results : Results) : Task → Build (Value × Option Report)
  | step s => do return (← s.run results, none)
  | reserve => do return (.field (← Build.reserve), none)
  | setChecked checked => do
    Build.setChecked checked
    return (.unit, none)
  | terms e => do return (.unit, some (.terms (← .lift .compilation (e.expr results))))
  | read e => do
    let x ← .lift .compilation (e.expr results)
    let s ← get
    return (.unit, some (.value (.field (← .lift .runtime (x.read s.values)))))
  | value x => do
    let v ← .lift .compilation (x.value results)
    return (.unit, some (.value (← .lift .runtime (v.known (← get)))))
  | bitConstant a => do
    let b ← .lift .compilation (a.bit results)
    return (.unit, some (.value (Value.bit b).constant))
  | bitsLength a => do
    let bs ← .lift .compilation (a.bits results)
    return (.unit, some (.length bs.length))

end RankOne.Program
