import RankOne.Output

/-! Results of the steps of a straight-line program, and references to them. -/
namespace RankOne.Program

inductive Value where
  | unit
  | field (x : Expr)
  | bit (b : Bit)
  | bits (bs : Bits)
  | word (w : Word)
  | list (vs : List Value)

instance : Inhabited Value := ⟨.unit⟩

abbrev Results := Array Value

namespace Value

/-- A component: an element of a list, or a bit of a vector or a word. -/
def component? : Value → Nat → Option Value
  | bits bs, i => bs[i]?.map bit
  | word w, i => w.bits[i]?.map bit
  | list vs, i => vs[i]?
  | _, _ => none

def toBit : Value → Except CompilationError Bit
  | bit b => .ok b
  | _ => .error .badReference

def toBits : Value → Except CompilationError Bits
  | bits bs => .ok bs
  | _ => .error .badReference

def toWord : Value → Except CompilationError Word
  | word w => .ok w
  | _ => .error .badReference

/-- An element, or the expression of a bit. -/
def toExpr : Value → Except CompilationError Expr
  | field x => .ok x
  | bit b => .ok b.expr
  | _ => .error .badReference

def toList : Value → Except CompilationError (List Value)
  | list vs => .ok vs
  | _ => .error .badReference

def ofVar : (s : Shape) → s.Var → Value
  | .field, e => field e
  | .bit, b => bit b
  | .unit, () => unit
  | .pair a b, (x, y) => list [ofVar a x, ofVar b y]

end Value

/-- A step by its index, and a path into its result. -/
structure Ref where
  step : Nat
  path : List Nat
  deriving DecidableEq, Repr

namespace Ref

def value (results : Results) (ref : Ref) : Except CompilationError Value :=
  match results[ref.step]?.bind fun v => ref.path.foldlM Value.component? v with
  | some v => .ok v
  | none => .error .badReference

def bit (results : Results) (ref : Ref) : Except CompilationError Bit := do
  (← ref.value results).toBit

def bits (results : Results) (ref : Ref) : Except CompilationError Bits := do
  (← ref.value results).toBits

def word (results : Results) (ref : Ref) : Except CompilationError Word := do
  (← ref.value results).toWord

end Ref

/-- Several references, or a reference to a list of values. -/
inductive Refs where
  | each (refs : List Ref)
  | elements (ref : Ref)
  deriving DecidableEq, Repr

namespace Refs

def values (results : Results) : Refs → Except CompilationError (List Value)
  | each refs => refs.mapM (·.value results)
  | elements ref => do (← ref.value results).toList

def bits (results : Results) (refs : Refs) : Except CompilationError (List Bits) := do
  (← refs.values results).mapM Value.toBits

def bitsLists (results : Results) (refs : Refs) : Except CompilationError (List (List Bits)) := do
  (← refs.values results).mapM fun v => do (← v.toList).mapM Value.toBits

def words (results : Results) (refs : Refs) : Except CompilationError (List Word) := do
  (← refs.values results).mapM Value.toWord

def exprs (results : Results) (refs : Refs) : Except CompilationError (List Expr) := do
  (← refs.values results).mapM Value.toExpr

end Refs

/-- An expression over earlier results. -/
inductive Operand where
  | const (c : Fr)
  | var (i : Nat)
  | ref (r : Ref)
  | sum (es : List Operand)
  | difference (es : List Operand)
  | negation (e : Operand)
  | scaled (s : Fr) (e : Operand)
  | combination (terms : List (Fr × Operand))
  | total (es : List Operand)
  /-- A sum or a multiple as written, without folding. -/
  | rawAdd (a b : Operand)
  | rawScale (s : Fr) (e : Operand)

namespace Operand

/-- Joins expressions from the left, at least one of them. -/
def join (op : Expr → Expr → Expr) : List Expr → Except CompilationError Expr
  | [] => .error .badReference
  | e :: es => .ok (es.foldl op e)

mutual

def expr (results : Results) : Operand → Except CompilationError Expr
  | const c => .ok (.const c)
  | var i => .ok (.var i)
  | ref r => do (← r.value results).toExpr
  | sum es => do join (· + ·) (← exprs results es)
  | difference es => do join (· - ·) (← exprs results es)
  | negation e => do return -(← e.expr results)
  | scaled s e => do return (← e.expr results).scaleBy s
  | combination terms => do return Expr.linearCombination (← weighted results terms)
  | total es => do return Expr.sum (← exprs results es)
  | rawAdd a b => do return .add (← a.expr results) (← b.expr results)
  | rawScale s e => do return .scale s (← e.expr results)

def exprs (results : Results) : List Operand → Except CompilationError (List Expr)
  | [] => .ok []
  | e :: es => do return (← e.expr results) :: (← exprs results es)

def weighted (results : Results) : List (Fr × Operand) → Except CompilationError (List (Fr × Expr))
  | [] => .ok []
  | (s, e) :: terms => do return (s, ← e.expr results) :: (← weighted results terms)

end

end Operand

/-- Several operands, or a reference to a list of values. -/
inductive Operands where
  | each (es : List Operand)
  | elements (ref : Ref)

def Operands.exprs (results : Results) : Operands → Except CompilationError (List Expr)
  | each es => Operand.exprs results es
  | elements ref => (Refs.elements ref).exprs results

end RankOne.Program
