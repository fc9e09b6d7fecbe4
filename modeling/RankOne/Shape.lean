import RankOne.Constraint

/-! Shapes of values that a circuit can allocate: elements, bits, nothing, and pairs. A shape has
a type of values, and a type of variables that stand for them in a circuit. -/
namespace RankOne

inductive Shape where
  | field
  | bit
  | unit
  | pair (a b : Shape)
  deriving DecidableEq

namespace Shape

@[reducible] def Value : Shape → Type
  | field => Fr
  | bit => Bool
  | unit => Unit
  | pair a b => a.Value × b.Value

@[reducible] def Var : Shape → Type
  | field => Expr
  | bit => Bit
  | unit => Unit
  | pair a b => a.Var × b.Var

def size : Shape → Nat
  | field => 1
  | bit => 1
  | unit => 0
  | pair a b => a.size + b.size

def encode : (s : Shape) → s.Value → List Fr
  | field, x => [x]
  | bit, b => [Fr.ofBool b]
  | unit, () => []
  | pair a b, (x, y) => a.encode x ++ b.encode y

/-- Reads a value back from its elements; anything but zero is a true bit. -/
def decode : (s : Shape) → List Fr → Option s.Value
  | field, [x] => some x
  | bit, [x] => some (decide (x ≠ 0))
  | unit, _ => some ()
  | pair a b, xs => do return (← a.decode (xs.take a.size), ← b.decode (xs.drop a.size))
  | _, _ => none

/-- Fresh variables, the first of them of index `n`. -/
def varsFrom : (s : Shape) → Nat → s.Var
  | field, n => .var n
  | bit, n => ⟨.var n⟩
  | unit, _ => ()
  | pair a b, n => (a.varsFrom n, b.varsFrom (n + a.size))

def exprs : (s : Shape) → s.Var → List Expr
  | field, e => [e]
  | bit, b => [b.expr]
  | unit, () => []
  | pair a b, (x, y) => a.exprs x ++ b.exprs y

/-- Puts variables together from the expressions behind them. -/
def ofExprs : (s : Shape) → List Expr → Option s.Var
  | field, [e] => some e
  | bit, [e] => some ⟨e⟩
  | unit, _ => some ()
  | pair a b, es =>
    if es.length = a.size + b.size then do
      return (← a.ofExprs (es.take a.size), ← b.ofExprs (es.drop a.size))
    else none
  | _, _ => none

/-- What makes the variables stand for a value: each bit is zero or one. -/
def constraints : (s : Shape) → s.Var → List Constraint
  | field, _ => []
  | bit, b => [.isBit b.expr]
  | unit, () => []
  | pair a b, (x, y) => a.constraints x ++ b.constraints y

def read (w : Witness) : (s : Shape) → s.Var → Except RuntimeError s.Value
  | field, e => e.read w
  | bit, b => b.read w
  | unit, () => .ok ()
  | pair a b, (x, y) => do return (← a.read w x, ← b.read w y)

end Shape
end RankOne
