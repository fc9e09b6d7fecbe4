/-! Bit layouts. Bits are listed least significant first inside a byte, and bytes come in
message order, so a little-endian 32-bit word has the bits of its four bytes. In a text a bit is
one digit and a byte two in hexadecimal, written in lower case and read in either. -/
namespace RankOne

/-- Consecutive runs of `n` elements, the last one maybe shorter. A size of zero reads as one. -/
def chunksOf (n : Nat) : List α → List (List α)
  | [] => []
  | x :: xs => (x :: xs.take (n - 1)) :: chunksOf n (xs.drop (n - 1))
termination_by xs => xs.length

@[simp] theorem chunksOf_nil (n : Nat) : chunksOf n ([] : List α) = [] := by
  rw [chunksOf]

theorem chunksOf_cons (n : Nat) (x : α) (xs : List α) :
    chunksOf n (x :: xs) = (x :: xs.take (n - 1)) :: chunksOf n (xs.drop (n - 1)) := by
  rw [chunksOf]

namespace Layout

/-- The number spelled by bits, least significant first. -/
def bitsValue : List Bool → Nat
  | [] => 0
  | b :: bs => b.toNat + 2 * bitsValue bs

/-- The `n` low bits of a number, least significant first. -/
def natBits (n value : Nat) : List Bool := (List.range n).map value.testBit

/-- The number spelled by bytes, least significant first. -/
def bytesValue : List UInt8 → Nat
  | [] => 0
  | b :: bs => b.toNat + 256 * bytesValue bs

/-- The `n` low bytes of a number, least significant first. -/
def natBytes : Nat → Nat → List UInt8
  | 0, _ => []
  | n + 1, value => UInt8.ofNat value :: natBytes n (value / 256)

def byteBits (byte : UInt8) : List Bool := natBits 8 byte.toNat

def bytesToBits (bytes : List UInt8) : List Bool := bytes.flatMap byteBits

/-- Each byte most significant bit first. -/
def bytesToBitsMsb (bytes : List UInt8) : List Bool :=
  bytes.flatMap fun byte => (byteBits byte).reverse

/-- A trailing partial byte is completed with zeros. -/
def bitsToBytes (bits : List Bool) : List UInt8 :=
  (chunksOf 8 bits).map fun chunk => UInt8.ofNat (bitsValue chunk)

def wordBits (word : UInt32) : List Bool := natBits 32 word.toNat

/-- Only the first 32 bits count. -/
def bitsToWord (bits : List Bool) : UInt32 := UInt32.ofNat (bitsValue (bits.take 32))

/-- The four bytes of a word, least significant first. -/
def wordBytes (word : UInt32) : List UInt8 := natBytes 4 word.toNat

/-- The four bytes of a word, most significant first. -/
def wordBytesMsb (word : UInt32) : List UInt8 := (wordBytes word).reverse

/-- Little-endian words; a trailing partial word is completed with zero bytes. -/
def bytesToWords (bytes : List UInt8) : List UInt32 :=
  (chunksOf 4 bytes).map fun chunk => UInt32.ofNat (bytesValue chunk)

end Layout

/-- One digit a bit, the first one first. -/
def bitDigits (bits : List Bool) : String :=
  String.ofList (bits.map fun b => if b then '1' else '0')

def bitsOfDigits? (text : String) : Option (List Bool) :=
  text.toList.mapM fun c => if c = '0' then some false else if c = '1' then some true else none

namespace Hex

def digit (n : Nat) : Char := Char.ofNat (if n < 10 then '0'.toNat + n else 'a'.toNat + (n - 10))

def digit? (c : Char) : Option Nat :=
  if '0' ≤ c ∧ c ≤ '9' then some (c.toNat - '0'.toNat)
  else if 'a' ≤ c ∧ c ≤ 'f' then some (c.toNat - 'a'.toNat + 10)
  else if 'A' ≤ c ∧ c ≤ 'F' then some (c.toNat - 'A'.toNat + 10)
  else none

def byteDigits (byte : UInt8) : List Char := [digit (byte.toNat / 16), digit (byte.toNat % 16)]

def encode (bytes : List UInt8) : String := String.ofList (bytes.flatMap byteDigits)

def bytes? : List Char → Option (List UInt8)
  | [] => some []
  | high :: low :: rest => do
    return UInt8.ofNat (16 * (← digit? high) + (← digit? low)) :: (← bytes? rest)
  | _ => none

/-- The bytes spelled by a text, none if a character is no digit or half a byte is left. -/
def decode? (text : String) : Option (List UInt8) := bytes? text.toList

end Hex
end RankOne
