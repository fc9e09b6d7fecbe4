import RankOne.Expr

/-! Constraints, and the rank-1 rows they become. A row holds when the product of its first two
combinations is the third. -/
namespace RankOne

inductive Constraint where
  | isBit (x : Expr)
  | equal (x y : Expr)
  | square (x z : Expr)
  | product (a b c : Expr)
  deriving DecidableEq

namespace Constraint

def Holds (z : Nat → Fr) : Constraint → Prop
  | isBit x => x.eval z = 1 ∨ x.eval z = 0
  | equal x y => x.eval z = y.eval z
  | square x y => x.eval z * x.eval z = y.eval z
  | product a b c => a.eval z * b.eval z = c.eval z

instance (z : Nat → Fr) (c : Constraint) : Decidable (c.Holds z) := by
  cases c <;> unfold Holds <;> infer_instance

def check (w : Witness) (label : String) : Constraint → Except RuntimeError Unit
  | isBit x => do
    let x ← x.read w
    if x = 1 ∨ x = 0 then return () else throw (.notBoolean label x)
  | equal x y => do
    let x ← x.read w
    let y ← y.read w
    if x = y then return () else throw (.notEqual label x y)
  | square x z => do
    let x ← x.read w
    let z ← z.read w
    if x * x = z then return () else throw (.notSquare label x z)
  | product a b c => do
    let a ← a.read w
    let b ← b.read w
    let c ← c.read w
    if a * b = c then return () else throw (.notProduct label a b c)

/-- The constraint as a product: both factors, and the result. -/
def toProduct : Constraint → Expr × Expr × Expr
  | isBit x => (x, x, x)
  | equal x y => (x - y, 1, 0)
  | square x z => (x, x, z)
  | product a b c => (a, b, c)

end Constraint

/-- A rank-1 constraint, with a label and the place that emitted it. -/
structure Row where
  a : LinearCombination
  b : LinearCombination
  c : LinearCombination
  label : String
  loc : String
  deriving DecidableEq

namespace Row

def ofConstraint (constraint : Constraint) (label loc : String) : Row :=
  let (a, b, c) := constraint.toProduct
  ⟨.ofExpr a, .ofExpr b, .ofExpr c, label, loc⟩

def isConstant (row : Row) : Bool :=
  row.a.isConstant && row.b.isConstant && row.c.isConstant

def Holds (z : Nat → Fr) (row : Row) : Prop := row.a.eval z * row.b.eval z = row.c.eval z

instance (z : Nat → Fr) (row : Row) : Decidable (row.Holds z) :=
  inferInstanceAs (Decidable (_ = _))

/-- Checks the row, which is reported with its index in the system. -/
def check (w : Witness) (index : Nat) (row : Row) : Except RuntimeError Unit := do
  let a ← row.a.read w
  let b ← row.b.read w
  let c ← row.c.read w
  if a * b = c then return ()
  else throw (.notProduct s!"{row.label} (row {index}, {row.loc})" a b c)

end Row

/-- The rows of a compiled circuit, and the number of its variables. -/
structure ConstraintSystem where
  rows : Array Row
  variableCount : Nat
  deriving DecidableEq

namespace ConstraintSystem

/-- Checks rows in order, the first of them at `index`. -/
def checkRows (w : Witness) : List Row → Nat → Except RuntimeError Unit
  | [], _ => .ok ()
  | row :: rows, index => do
    row.check w index
    checkRows w rows (index + 1)

/-- Checks a full assignment, and reports the first row that it breaks. -/
def check (system : ConstraintSystem) (w : Witness) : Except RuntimeError Unit :=
  if w.size = system.variableCount then checkRows w system.rows.toList 0
  else .error (.variableCount system.variableCount w.size)

end ConstraintSystem
end RankOne
