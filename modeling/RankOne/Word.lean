import RankOne.Bits

/-! Words of 32 bits, with exclusive or, rotation, and addition modulo 2^32. -/
namespace RankOne

structure Word where
  bits : Bits
  deriving DecidableEq

namespace Word

def width : Nat := 32

instance : Inhabited Word := ⟨⟨[]⟩⟩

def const (word : UInt32) : Word := ⟨Bits.const (Layout.wordBits word)⟩

def constant? (word : Word) : Option UInt32 := (Bits.constant? word.bits).map Layout.bitsToWord

def read (w : Witness) (word : Word) : Except RuntimeError UInt32 := do
  return Layout.bitsToWord (← Bits.read w word.bits)

def witness (value : Option UInt32) (loc : String) : Circuit Word := do
  return ⟨← Bits.witness width (value.map Layout.wordBits) loc⟩

/-- Allocates `len` words, whose values are taken in order. Words past the values are left open. -/
def witnesses (len : Nat) (values : List UInt32) (loc : String) : Circuit (List Word) :=
  match len with
  | 0 => pure []
  | len + 1 => do
    let word ← witness values.head? loc
    return word :: (← witnesses len values.tail loc)

def ofBits (bits : Bits) : Circuit Word :=
  if bits.length = width then pure ⟨bits⟩
  else Circuit.reject (.width "32-bit word" width bits.length)

def toExpr (word : Word) : Expr := Bits.toExpr word.bits

def xor (a b : Word) (loc : String) : Circuit Word := do
  return ⟨← Bits.xor a.bits b.bits loc⟩

def rotateLeft (word : Word) (n : Nat) : Word := ⟨Bits.rotateLeft word.bits n⟩

def bitLength (n : Nat) : Nat := if n = 0 then 0 else n.log2 + 1

/-- The sum modulo 2^32. A sum of `k` words has at most as many carry bits as `k - 1` has
digits; the carry is decomposed with the rest, and dropped. -/
def addMany (words : List Word) (loc : String) : Circuit Word :=
  if words.isEmpty then pure (const 0)
  else do
    let sum := Expr.sum (words.map toExpr)
    let bits ← Bits.ofExpr sum (width + bitLength (words.length - 1)) loc
    ofBits (bits.take width)

def add (a b : Word) (loc : String) : Circuit Word := addMany [a, b] loc

end Word
end RankOne
