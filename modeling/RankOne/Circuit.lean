import RankOne.Shape

/-! Descriptions of circuits. A circuit allocates variables, whose values are given by hints,
and emits constraints. It never looks at the way it is run, so every way of running it allocates
the same variables and meets the same constraints. Products, squares and equality of expressions,
and the operations on bits made from them, are done on the expressions alone where they need no new
variable. -/
namespace RankOne

/-- The place of constraints that the gadgets of this library emit on their own. -/
def gadgetLoc : String := "<src>"

inductive Circuit (α : Type) where
  | done (a : α)
  | fail (e : Error)
  /-- Allocates `len` values of a shape. The hint computes them from the values so far, and
  `next` takes the index of the first variable. -/
  | witness (s : Shape) (len : Nat) (loc : String)
      (hint : Witness → Except RuntimeError (List s.Value)) (next : Nat → Circuit α)
  /-- Allocates a variable of a known value, which nothing constrains. -/
  | store (x : Fr) (next : Nat → Circuit α)
  | constrain (cs : List Constraint) (label loc : String) (next : Circuit α)

namespace Circuit

def bind : Circuit α → (α → Circuit β) → Circuit β
  | done a, f => f a
  | fail e, _ => fail e
  | witness s len loc hint next, f => witness s len loc hint fun n => (next n).bind f
  | store x next, f => store x fun n => (next n).bind f
  | constrain cs label loc next, f => constrain cs label loc (next.bind f)

instance : Monad Circuit where
  pure := done
  bind := bind

theorem bind_done (c : Circuit α) : c.bind done = c := by
  induction c with
  | done _ => rfl
  | fail _ => rfl
  | witness _ _ _ _ _ ih => simp [bind, ih]
  | store _ _ ih => simp [bind, ih]
  | constrain _ _ _ _ ih => simp [bind, ih]

theorem bind_assoc (c : Circuit α) (f : α → Circuit β) (g : β → Circuit γ) :
    (c.bind f).bind g = c.bind fun a => (f a).bind g := by
  induction c with
  | done _ => rfl
  | fail _ => rfl
  | witness _ _ _ _ _ ih => simp [bind, ih]
  | store _ _ ih => simp [bind, ih]
  | constrain _ _ _ _ ih => simp [bind, ih]

instance : LawfulMonad Circuit :=
  LawfulMonad.mk' Circuit bind_done (fun _ _ => rfl) bind_assoc

/-- Gives up because of the parameters of the circuit. -/
def reject (e : CompilationError) : Circuit α := fail (.compilation e)

/-- Passes on a size, which has to be a 64-bit number. -/
def size (n : Nat) : Circuit Nat := if n < UInt64.size then pure n else reject (.tooLarge n)

/-- Allocates a value of a shape without constraining it. -/
def computeFree (s : Shape) (loc : String) (hint : Witness → Except RuntimeError s.Value) :
    Circuit s.Var :=
  witness s 1 loc (fun w => do return [← hint w]) fun n => done (s.varsFrom n)

/-- Allocates a value of a shape, and constrains the variables to stand for one. -/
def compute (s : Shape) (loc : String) (hint : Witness → Except RuntimeError s.Value) :
    Circuit s.Var := do
  let v ← computeFree s loc hint
  constrain (s.constraints v) "boolean check" loc (done v)

/-- Allocates `len` values of a shape. The hint has to give as many. -/
def computeMany (s : Shape) (len : Nat) (loc : String)
    (hint : Witness → Except RuntimeError (List s.Value)) : Circuit (List s.Var) :=
  witness s len loc hint fun n =>
    let vs := (List.range len).map fun i => s.varsFrom (n + i * s.size)
    constrain (vs.flatMap s.constraints) "boolean check" loc (done vs)

/-- Emits constraints under a label, or as unknown ones. -/
def assert (label : Option String) (loc : String) (cs : List Constraint) : Circuit Unit :=
  constrain cs (label.getD "<unknown>") loc (done ())

/-- Allocates a variable of a known value, which nothing constrains. -/
def storeValue (x : Fr) : Circuit Expr := store x fun n => done (.var n)

end Circuit

namespace Expr

/-- The product. A constant factor scales the other one; otherwise the product is a new
variable, at the cost of one constraint. -/
def mul (x y : Expr) (label : Option String) (loc : String) : Circuit Expr :=
  match x, y with
  | const c, y => pure (y.scaleBy c)
  | x, const c => pure (x.scaleBy c)
  | x, y => do
    let res ← Circuit.computeFree .field loc fun w => do return (← x.read w) * (← y.read w)
    Circuit.assert (label.getD "checked_mul") loc [.product x y res]
    return res

/-- The square, a new variable unless the expression is a constant. -/
def square (x : Expr) (loc : String) : Circuit Expr :=
  match x with
  | const c => pure (const (c * c))
  | x => do
    let res ← Circuit.computeFree .field loc fun w => do
      let v ← x.read w
      return v * v
    Circuit.assert "checked_square" loc [.square x res]
    return res

/-- Asserts equality. Two constants are compared at once. -/
def assertEquals (x y : Expr) (loc : String) : Circuit Unit :=
  match x, y with
  | const c, const d =>
    if c = d then pure () else Circuit.reject (.unequalConstants c d)
  | x, y => Circuit.assert "assert_equals" loc [.equal x y]

end Expr

namespace Bit

def and (a b : Bit) (loc : String) : Circuit Bit := do
  return ⟨← a.expr.mul b.expr "bool.and" loc⟩

/-- The exclusive or `c`, with `2 a b = a + b - c`. A constant operand makes it free. -/
def xor (a b : Bit) (loc : String) : Circuit Bit :=
  match a.constant?, b.constant? with
  | some true, _ => pure b.not
  | _, some true => pure a.not
  | some false, _ => pure b
  | _, some false => pure a
  | none, none => do
    let c ← Circuit.computeFree .bit loc fun w => do
      return (← a.read w) != (← b.read w)
    Circuit.assert "xor" loc
      [.product (a.expr + a.expr) b.expr (a.expr + b.expr - c.expr)]
    return c

end Bit
end RankOne
