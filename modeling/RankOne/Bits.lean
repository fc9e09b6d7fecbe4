import RankOne.Circuit

/-! Vectors of bits, least significant first, and the constrained conversion of a field element
to its bits. A byte string is the concatenation of the bits of its bytes. -/
namespace RankOne

abbrev Bits := List Bit

namespace Bits

def const (bs : List Bool) : Bits := bs.map Bit.const

def constBytes (bytes : List UInt8) : Bits := const (Layout.bytesToBits bytes)

def constant? (bits : Bits) : Option (List Bool) := bits.mapM Bit.constant?

def read (w : Witness) (bits : Bits) : Except RuntimeError (List Bool) := bits.mapM (Bit.read w)

/-- Allocates `len` bits. A witness needs their value. -/
def witness (len : Nat) (value : Option (List Bool)) (loc : String) : Circuit Bits :=
  Circuit.computeMany .bit len loc fun _ =>
    match value with
    | some bs => .ok bs
    | none => .error (.missingInput loc)

/-- Allocates the bits of `len` bytes. A value of another length is rejected. -/
def witnessBytes (what : String) (len : Nat) (value : Option (List UInt8)) (loc : String) :
    Circuit Bits :=
  match value with
  | some bytes =>
    if bytes.length = len then do
      witness (← Circuit.size (8 * len)) (Layout.bytesToBits bytes) loc
    else .fail (.runtime (.inputLength what len bytes.length))
  | none => do witness (← Circuit.size (8 * len)) none loc

/-- The bits with their weights, the first weight given and each one twice the one before. -/
def weigh : Fr → Bits → List (Fr × Expr)
  | _, [] => []
  | c, b :: bs => (c, b.expr) :: weigh (c + c) bs

def toExpr (bits : Bits) : Expr := Expr.linearCombination (weigh 1 bits)

/-- The `width` bits of an expression. A larger value has no such bits, so that this is also a
range check. The width is limited, for the bits to be unique in the field. -/
def ofExpr (x : Expr) (width : Nat) (loc : String) : Circuit Bits :=
  if modulusBits ≤ width then do Circuit.reject (.fieldTooSmall (← Circuit.size (width + 1)))
  else match x.constant? with
    | some c =>
      if c.val < 1 <<< width then pure (const (Layout.natBits width c.val))
      else Circuit.reject (.constantTooWide c width)
    | none => do
      let bits ← Circuit.computeMany .bit width loc fun w => do
        return Layout.natBits width (← x.read w).val
      (toExpr bits).assertEquals x loc
      return bits

def zipWith (what : String) (op : Bit → Bit → Circuit Bit) (a b : Bits) : Circuit Bits :=
  if a.length = b.length then (a.zip b).mapM fun (x, y) => op x y
  else Circuit.reject (.width what a.length b.length)

def xor (a b : Bits) (loc : String) : Circuit Bits := zipWith "xor operand" (·.xor · loc) a b

def and (a b : Bits) (loc : String) : Circuit Bits := zipWith "and operand" (·.and · loc) a b

def not (bits : Bits) : Bits := bits.map Bit.not

/-- Moves the value towards the most significant end, and the top bits to the bottom. -/
def rotateLeft (bits : Bits) (n : Nat) : Bits := List.rotateRight bits n

def rotateRight (bits : Bits) (n : Nat) : Bits := List.rotateLeft bits n

/-- Reverses the bits of each byte, a trailing partial byte included. -/
def reverseInBytes (bits : Bits) : Bits := (chunksOf 8 bits).flatMap List.reverse

def chunks (n : Nat) (bits : Bits) : Circuit (List Bits) :=
  if n = 0 then Circuit.reject .zeroChunk else pure (chunksOf n bits)

/-- Packs runs of `chunk` bits into expressions. The size is limited, for the packing to be
injective. -/
def pack (chunk : Nat) (bits : Bits) : Circuit (List Expr) :=
  if chunk = 0 then Circuit.reject .packingNoBits
  else if modulusBits ≤ chunk then do
    Circuit.reject (.fieldTooSmall (← Circuit.size (chunk + 1)))
  else pure ((chunksOf chunk bits).map toExpr)

def text (bits : Bits) : String := ",".intercalate (bits.map (·.expr.text))

end Bits

/-- A vector of bits that is read as bytes. -/
structure Bytes where
  bits : Bits
  deriving DecidableEq

def Bytes.read (w : Witness) (bytes : Bytes) : Except RuntimeError (List UInt8) := do
  return Layout.bitsToBytes (← Bits.read w bytes.bits)

end RankOne
