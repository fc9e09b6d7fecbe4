import RankOne.Field

/-! What can go wrong while a circuit is described, and while a witness is computed. -/
namespace RankOne

/-- Failures that depend on the parameters of a circuit and not on its witness. -/
inductive CompilationError where
  | unequalConstants (x y : Fr)
  | constantTooWide (x : Fr) (bits : Nat)
  | keyLength (bytes : Nat)
  | width (what : String) (expected got : Nat)
  | counterOverflow (initial blocks : Nat)
  | fieldTooSmall (needed : Nat)
  | packingNoBits
  | tooFewRoundKeys
  /-- Bits cannot be cut into chunks of no bits. -/
  | zeroChunk
  | indexOutOfRange (index : Nat)
  /-- A size is not a 64-bit number, or no list of this size can be held. -/
  | tooLarge (size : Nat)
  /-- An operand of a program names no earlier result of its kind. -/
  | badReference
  deriving DecidableEq

/-- Failures met while a witness is computed or checked. -/
inductive RuntimeError where
  | notBoolean (label : String) (x : Fr)
  | notEqual (label : String) (x y : Fr)
  | notSquare (label : String) (x z : Fr)
  | notProduct (label : String) (a b c : Fr)
  | inputLength (what : String) (expected got : Nat)
  | hintLength (loc : String) (expected got : Nat)
  | variableCount (compiled witness : Nat)
  | missingInput (loc : String)
  /-- A variable is read that has no value. -/
  | unassigned (index : Nat)
  deriving DecidableEq

inductive Error where
  | compilation (e : CompilationError)
  | runtime (e : RuntimeError)
  | outputMismatch (expected actual : String)
  deriving DecidableEq

/-- The kind of an error, told apart by callers that do not read messages. -/
def CompilationError.name : CompilationError → String
  | unequalConstants .. => "ConstantAssertEquals"
  | constantTooWide .. => "ConstantAssertEquals"
  | keyLength .. => "UnsupportedKeyLength"
  | width .. => "WidthMismatch"
  | counterOverflow .. => "CounterOverflow"
  | fieldTooSmall .. => "FieldTooSmall"
  | packingNoBits => "InvalidParameter"
  | tooFewRoundKeys => "InvalidParameter"
  | zeroChunk => "ZeroChunk"
  | indexOutOfRange .. => "IndexOutOfRange"
  | tooLarge .. => "TooLarge"
  | badReference => "BadReference"

def RuntimeError.name : RuntimeError → String
  | notBoolean .. => "UnsatisfiedBooleanConstraint"
  | notEqual .. => "UnsatisfiedEqualConstraint"
  | notSquare .. => "UnsatisfiedSquareConstraint"
  | notProduct .. => "UnsatisfiedR1CSConstraint"
  | inputLength .. => "InputLength"
  | hintLength .. => "WitnessShapeMismatch"
  | variableCount .. => "VariableCountMismatch"
  | missingInput .. => "MissingInput"
  | unassigned .. => "UnassignedVariable"

def Error.name : Error → String
  | compilation e => "CompilationError." ++ e.name
  | runtime e => "RuntimeError." ++ e.name
  | outputMismatch .. => "OutputMismatch"

def CompilationError.message : CompilationError → String
  | unequalConstants x y => s!"the two values were not equal: {x.display} != {y.display}"
  | constantTooWide x bits =>
    s!"the two values were not equal: {x.display} != a {bits}-bit value"
  | keyLength bytes =>
    s!"unsupported AES key length of {bytes} bytes (expected 16, 24 or 32)"
  | width what expected got => s!"{what} is {got} bits wide, expected {expected}"
  | counterOverflow initial blocks =>
    s!"the block counter starting at {initial} overflows 32 bits after {blocks} blocks"
  | fieldTooSmall needed =>
    s!"the field has {modulusBits} bits, at least {needed} are needed"
  | packingNoBits => "invalid parameter: cannot pack bits into chunks of 0 bits"
  | tooFewRoundKeys => "invalid parameter: AES needs at least two round keys"
  | zeroChunk => "chunk size must be non-zero"
  | indexOutOfRange index => s!"the index {index} is out of range"
  | tooLarge size => s!"the size {size} is too large"
  | badReference => "an operand names no earlier result of its kind"

def RuntimeError.message : RuntimeError → String
  | notBoolean label x =>
    s!"unsatisfied constraint `{label}`: {x.display} is not a boolean (0 or 1)"
  | notEqual label x y =>
    s!"unsatisfied constraint `{label}`: {x.display} is not equal to {y.display}"
  | notSquare label x z =>
    s!"unsatisfied constraint `{label}`: {x.display}^2 is not equal to {z.display}"
  | notProduct label a b c =>
    s!"unsatisfied constraint `{label}`: {a.display} * {b.display} is not equal to {c.display}"
  | inputLength what expected got =>
    s!"{what} has length {got}, the circuit was compiled for {expected}"
  | hintLength loc expected got =>
    s!"the witness computation at {loc} produced {got} values, {expected} were allocated"
  | variableCount compiled witness =>
    s!"the witness has {witness} variables, the compiled circuit has {compiled}"
  | missingInput loc => s!"witness generation at {loc} needs an input, none was given"
  | unassigned index => s!"the variable {index} has no value"

def Error.message : Error → String
  | compilation e => "a compilation error occurred: " ++ e.message
  | runtime e => "a runtime error occurred: " ++ e.message
  | outputMismatch expected actual =>
    s!"the circuit output {actual} does not match the expected output {expected}"

end RankOne
