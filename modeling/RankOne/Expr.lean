import RankOne.Error

/-! Affine expressions over the variables of a circuit. The operators fold constants where that
is cheap, and `eval` says what any expression means under an assignment. A linear combination is
the canonical form of an expression: terms in increasing order of variable, each variable once, and
no zero coefficient. A bit is an expression that the constraints force to be zero or one. -/
namespace RankOne

/-- The values of the variables of a circuit, in allocation order. -/
abbrev Witness := Array Fr

inductive Expr where
  | const (c : Fr)
  | var (i : Nat)
  | add (a b : Expr)
  | scale (s : Fr) (e : Expr)
  deriving DecidableEq

namespace Expr

/-- The value under an assignment of all variables. -/
def eval (z : Nat → Fr) : Expr → Fr
  | const c => c
  | var i => z i
  | add a b => a.eval z + b.eval z
  | scale s e => s * e.eval z

/-- Every variable is among the first `n`. -/
def Below (n : Nat) : Expr → Prop
  | const _ => True
  | var i => i < n
  | add a b => a.Below n ∧ b.Below n
  | scale _ e => e.Below n

/-- The value under a witness that assigns every variable of the expression. -/
def read (w : Witness) : Expr → Except RuntimeError Fr
  | const c => .ok c
  | var i =>
    match w[i]? with
    | some x => .ok x
    | none => .error (.unassigned i)
  | add a b => do return (← a.read w) + (← b.read w)
  | scale s e => do return s * (← e.read w)

/-- The sum of the constants, each times the scalars above it. -/
def constantFrom (s : Fr) : Expr → Fr
  | const c => s * c
  | var _ => 0
  | add a b => a.constantFrom s + b.constantFrom s
  | scale t e => e.constantFrom (s * t)

/-- Puts the variables in front of `rest`, each with the product of the scalars above it. -/
def termsFrom (s : Fr) : Expr → List (Fr × Nat) → List (Fr × Nat)
  | const _, rest => rest
  | var i, rest => (s, i) :: rest
  | add a b, rest => a.termsFrom s (b.termsFrom s rest)
  | scale t e, rest => e.termsFrom (s * t) rest

def constant (e : Expr) : Fr := e.constantFrom 1

/-- The variables with their coefficients, from left to right and with repetitions. -/
def terms (e : Expr) : List (Fr × Nat) := e.termsFrom 1 []

/-- A sum, in which a constant zero is dropped and two constants are added up. -/
def plus : Expr → Expr → Expr
  | const x, const y => if x = 0 then const y else if y = 0 then const x else const (x + y)
  | const x, b => if x = 0 then b else add (const x) b
  | a, const y => if y = 0 then a else add a (const y)
  | a, b => add a b

/-- A multiple, in which a constant or an existing scalar takes the factor in. -/
def scaleBy (e : Expr) (s : Fr) : Expr :=
  if s = 0 then const 0
  else if s = 1 then e
  else match e with
    | const x => const (x * s)
    | scale t e => scale (t * s) e
    | e => scale s e

def negate (e : Expr) : Expr := e.scaleBy (-1)

/-- A difference, in which two constants are subtracted. -/
def minus : Expr → Expr → Expr
  | const x, const y => const (x - y)
  | a, b => a.plus b.negate

instance : Zero Expr := ⟨const 0⟩
instance : One Expr := ⟨const 1⟩
instance : Inhabited Expr := ⟨0⟩
instance : Add Expr := ⟨plus⟩
instance : Sub Expr := ⟨minus⟩
instance : Neg Expr := ⟨negate⟩

/-- The sum of multiples, added up from the left. -/
def linearCombination (terms : List (Fr × Expr)) : Expr :=
  terms.foldl (fun acc term => acc + term.2.scaleBy term.1) 0

def sum (es : List Expr) : Expr := linearCombination (es.map ((1 : Fr), ·))

/-- The tree, fully parenthesized. Variable i is written vi. -/
def text : Expr → String
  | const c => c.digits
  | var i => s!"v{i}"
  | add a b => "(" ++ a.text ++ "+" ++ b.text ++ ")"
  | scale s e => "(" ++ s.digits ++ "*" ++ e.text ++ ")"

end Expr

structure LinearCombination where
  constant : Fr
  terms : List (Fr × Nat)
  deriving DecidableEq

namespace LinearCombination

/-- Puts a term in front, unless its coefficient is zero. -/
def keep (c : Fr) (v : Nat) (terms : List (Fr × Nat)) : List (Fr × Nat) :=
  if c = 0 then terms else (c, v) :: terms

/-- Adds a term whose variable is at most those of a canonical list. -/
def addFirst (term : Fr × Nat) : List (Fr × Nat) → List (Fr × Nat)
  | [] => keep term.1 term.2 []
  | (d, w) :: rest =>
    if term.2 = w then keep (term.1 + d) w rest else keep term.1 term.2 ((d, w) :: rest)

def compress (terms : List (Fr × Nat)) : List (Fr × Nat) :=
  (terms.mergeSort fun s t => s.2 ≤ t.2).foldr addFirst []

def ofExpr (e : Expr) : LinearCombination := ⟨e.constant, compress e.terms⟩

def isConstant (lc : LinearCombination) : Bool := lc.terms.isEmpty

def eval (z : Nat → Fr) (lc : LinearCombination) : Fr :=
  lc.terms.foldl (fun acc term => acc + term.1 * z term.2) lc.constant

def read (w : Witness) (lc : LinearCombination) : Except RuntimeError Fr :=
  lc.terms.foldlM (fun acc term =>
    match w[term.2]? with
    | some x => .ok (acc + term.1 * x)
    | none => .error (.unassigned term.2)) lc.constant

/-- The constant, then every term. -/
def text (lc : LinearCombination) : String :=
  lc.terms.foldl (fun text term => text ++ s!"+{term.1.digits}*v{term.2}") lc.constant.digits

end LinearCombination

/-- The value of an expression that depends on no variable. -/
def Expr.constant? (e : Expr) : Option Fr :=
  match e with
  | .const c => some c
  | .var _ => none
  | e =>
    let lc := LinearCombination.ofExpr e
    if lc.isConstant then some lc.constant else none

structure Bit where
  expr : Expr
  deriving DecidableEq

namespace Bit

instance : Inhabited Bit := ⟨⟨0⟩⟩

def const (b : Bool) : Bit := ⟨.const (Fr.ofBool b)⟩

/-- The value of a constant. Other expressions have none, even if no variable occurs. -/
def constant? : Bit → Option Bool
  | ⟨.const c⟩ => some (c = 1)
  | _ => none

/-- Anything but zero reads as true. -/
def read (w : Witness) (b : Bit) : Except RuntimeError Bool := do
  let x ← b.expr.read w
  return x ≠ 0

def not (b : Bit) : Bit := ⟨Expr.const 1 - b.expr⟩

end Bit
end RankOne
