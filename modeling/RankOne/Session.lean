import RankOne.Circuit

/-! Running circuits. A session compiles a circuit to rows, counts its variables, or computes a
witness, with or without checking the constraints on the way. What was allocated and emitted
before an error stays. Allocation is idealised: the index of the next variable is a natural number,
and there is room for a list of any length. -/
namespace RankOne

inductive Mode where
  | compile
  | count
  | witness (checked : Bool)
  deriving DecidableEq, Repr

structure Session where
  mode : Mode
  rows : Array Row
  values : Witness
  nextVar : Nat
  deriving DecidableEq

namespace Session

def start (mode : Mode) : Session := ⟨mode, #[], #[], 0⟩

def hasWitness (s : Session) : Bool :=
  match s.mode with
  | .witness _ => true
  | _ => false

/-- Turns the checking of constraints on or off; it happens in witness sessions only. -/
def setChecked (s : Session) (checked : Bool) : Session :=
  match s.mode with
  | .witness _ => { s with mode := .witness checked }
  | _ => s

/-- Allocates variables without values. -/
def reserve (s : Session) (n : Nat) : Session := { s with nextVar := s.nextVar + n }

def assign (s : Session) (xs : List Fr) : Session :=
  { s with values := s.values ++ xs, nextVar := s.nextVar + xs.length }

/-- Allocates values of a shape, and gives the index of the first variable. Only a witness
session asks the hint for the values. -/
def allocate (s : Session) (shape : Shape) (len : Nat) (loc : String)
    (hint : Witness → Except RuntimeError (List shape.Value)) : Except Error Nat × Session :=
  match s.mode with
  | .witness _ =>
    match hint s.values with
    | .error e => (.error (.runtime e), s)
    | .ok vs =>
      if vs.length = len then (.ok s.nextVar, s.assign (vs.flatMap shape.encode))
      else (.error (.runtime (.hintLength loc len vs.length)), s)
  | _ => (.ok s.nextVar, s.reserve (len * shape.size))

/-- Adds a row. A row without variables is checked at once and left out. -/
def addRow (s : Session) (row : Row) : Except Error Unit × Session :=
  if row.isConstant then
    let product := row.a.constant * row.b.constant
    if product = row.c.constant then (.ok (), s)
    else (.error (.compilation (.unequalConstants product row.c.constant)), s)
  else (.ok (), { s with rows := s.rows.push row })

def constrain (s : Session) (label loc : String) (c : Constraint) : Except Error Unit × Session :=
  match s.mode with
  | .compile => s.addRow (.ofConstraint c label loc)
  | .count => (.ok (), s)
  | .witness false => (.ok (), s)
  | .witness true =>
    match c.check s.values s!"{label} ({loc})" with
    | .error e => (.error (.runtime e), s)
    | .ok () => (.ok (), s)

/-- Emits constraints in order, up to the first that fails. -/
def constrainAll (s : Session) (label loc : String) : List Constraint → Except Error Unit × Session
  | [] => (.ok (), s)
  | c :: cs =>
    match s.constrain label loc c with
    | (.error e, s) => (.error e, s)
    | (.ok (), s) => s.constrainAll label loc cs

def system (s : Session) : ConstraintSystem := ⟨s.rows, s.nextVar⟩

end Session

/-- Work on a session, which keeps its effects when it fails. -/
abbrev Build := ExceptT Error (StateM Session)

namespace Circuit

def run : Circuit α → Session → Except Error α × Session
  | done a, s => (.ok a, s)
  | fail e, s => (.error e, s)
  | witness shape len loc hint next, s =>
    match s.allocate shape len loc hint with
    | (.error e, s) => (.error e, s)
    | (.ok first, s) => (next first).run s
  | store x next, s => (next s.nextVar).run (s.assign [x])
  | constrain cs label loc next, s =>
    match s.constrainAll label loc cs with
    | (.error e, s) => (.error e, s)
    | (.ok (), s) => next.run s

def build (c : Circuit α) : Build α := ExceptT.mk c.run

end Circuit

namespace Build

/-- A result that leaves the session alone, its failure turned into an error. -/
def lift (error : ε → Error) : Except ε α → Build α
  | .ok a => pure a
  | .error e => throw (error e)

def reserve : Build Expr := do
  let s ← get
  set (s.reserve 1)
  return .var s.nextVar

def setChecked (checked : Bool) : Build Unit := modify (·.setChecked checked)

end Build
end RankOne
