import RankOne.Layout

/-! The scalar field of the BN254 curve. Elements are kept reduced, so equality of elements
is equality of their representatives. They are written as 32 little-endian bytes, or as bits. Only
canonical encodings are read: the number spelled has to lie below the order of the field. -/
namespace RankOne

/-- The order of the field, a prime of 254 bits. -/
def modulus : Nat :=
  21888242871839275222246405745257275088548364400416034343698204186575808495617

def modulusBits : Nat := 254

theorem modulus_pos : 0 < modulus := by decide

inductive EncodingError where
  | notCanonical
  | tooManyBits (got capacity : Nat)
  /-- Bits cannot be cut into chunks of no bits. -/
  | zeroChunk
  deriving DecidableEq, Repr

namespace EncodingError

def message : EncodingError → String
  | notCanonical => "failed to deserialize field bytes"
  | tooManyBits got capacity =>
    s!"too many bits for the field: got {got}, the field holds at most {capacity}"
  | zeroChunk => "chunk size must be non-zero"

end EncodingError

/-- A field element, by its representative below the order. -/
structure Fr where
  val : Nat
  isLt : val < modulus
  deriving DecidableEq

namespace Fr

@[ext] theorem ext {x y : Fr} (h : x.val = y.val) : x = y := by
  cases x; cases y; cases h; rfl

def ofNat (n : Nat) : Fr := ⟨n % modulus, Nat.mod_lt n modulus_pos⟩

@[simp] theorem val_ofNat (n : Nat) : (ofNat n).val = n % modulus := rfl

@[simp] theorem ofNat_val (x : Fr) : ofNat x.val = x :=
  Fr.ext (Nat.mod_eq_of_lt x.isLt)

def ofInt (n : Int) : Fr := ofNat (n % (modulus : Int)).toNat

def ofNat? (n : Nat) : Option Fr :=
  if h : n < modulus then some ⟨n, h⟩ else none

instance : Zero Fr := ⟨ofNat 0⟩
instance : One Fr := ⟨ofNat 1⟩
instance : NatCast Fr := ⟨ofNat⟩
instance : Inhabited Fr := ⟨0⟩
instance : Add Fr := ⟨fun x y => ofNat (x.val + y.val)⟩
instance : Mul Fr := ⟨fun x y => ofNat (x.val * y.val)⟩
instance : Neg Fr := ⟨fun x => ofNat (modulus - x.val)⟩
instance : Sub Fr := ⟨fun x y => ofNat (x.val + (modulus - y.val))⟩

@[simp] theorem val_zero : (0 : Fr).val = 0 := by decide
@[simp] theorem val_one : (1 : Fr).val = 1 := by decide
theorem val_add (x y : Fr) : (x + y).val = (x.val + y.val) % modulus := rfl
theorem val_mul (x y : Fr) : (x * y).val = (x.val * y.val) % modulus := rfl
theorem val_neg (x : Fr) : (-x).val = (modulus - x.val) % modulus := rfl
theorem val_sub (x y : Fr) : (x - y).val = (x.val + (modulus - y.val)) % modulus := rfl

def ofBool (b : Bool) : Fr := if b then 1 else 0

/-- A power, by squaring: the exponent loses its last binary digit at each step. -/
def pow (x : Fr) (n : Nat) : Fr :=
  if n = 0 then 1
  else
    let half := pow x (n / 2)
    if n % 2 = 0 then half * half else half * half * x
termination_by n

def digits (x : Fr) : String := toString x.val

/-- The text of an element inside a message: its digits, and nothing at all for zero. -/
def display (x : Fr) : String := if x = 0 then "" else x.digits

/-- The four 64-bit limbs of the representative, the least significant first. -/
def limbs (x : Fr) : List Nat :=
  (List.range 4).map fun i => x.val >>> (64 * i) % UInt64.size

def encodedBytes : Nat := 32

def toBytes (x : Fr) : List UInt8 := Layout.natBytes encodedBytes x.val

def ofCanonical (n : Nat) : Except EncodingError Fr :=
  match ofNat? n with
  | some x => .ok x
  | none => .error .notCanonical

/-- Reads the first 32 bytes; what follows them is ignored. -/
def ofBytes (bytes : List UInt8) : Except EncodingError Fr :=
  if bytes.length < encodedBytes then .error .notCanonical
  else ofCanonical (Layout.bytesValue (bytes.take encodedBytes))

/-- Reads at most as many bits as 32 bytes hold. -/
def ofBits (bits : List Bool) : Except EncodingError Fr :=
  if 8 * encodedBytes < bits.length then .error (.tooManyBits bits.length (8 * encodedBytes))
  else ofCanonical (Layout.bitsValue bits)

/-- The number spelled by bytes, most significant first, reduced. -/
def ofBytesMsb (bytes : List UInt8) : Fr := ofNat (Layout.bytesValue bytes.reverse)

end Fr
end RankOne
