import RankOne.Aes.KeySize
import RankOne.Layout

/-! The AES block cipher on bytes. Bytes are polynomials over two elements modulo
x^8 + x^4 + x^3 + x + 1. Byte `k` of a block is in row `k % 4` and column `k / 4` of the state. -/
namespace RankOne.Aes.Cipher

abbrev Block := Vector UInt8 16

/-- A column of the state, or a word of the key schedule. -/
abbrev Column := Vector UInt8 4

/-- The product with x. -/
def timesX (a : UInt8) : UInt8 := if a < 0x80 then a <<< 1 else a <<< 1 ^^^ 0x1b

/-- The product: one multiple of the first factor for every power of x in the second one. -/
def times (a b : UInt8) : UInt8 :=
  (Layout.byteBits b).foldr (fun bit sum => timesX sum ^^^ if bit then a else 0) 0

/-- The byte whose product with this one is one. There is none for zero, which is left as it is. -/
def inverse (a : UInt8) : UInt8 :=
  (((List.range 256).map UInt8.ofNat).find? fun b => times a b = 1).getD 0

/-- Rotates a byte towards the high end. -/
def rotate (a : UInt8) (k : Nat) : UInt8 := a <<< UInt8.ofNat k ||| a >>> UInt8.ofNat (8 - k)

def affine (a : UInt8) : UInt8 :=
  a ^^^ rotate a 1 ^^^ rotate a 2 ^^^ rotate a 3 ^^^ rotate a 4 ^^^ 0x63

def substitute (bytes : Vector UInt8 n) : Vector UInt8 n := bytes.map fun a => affine (inverse a)

def add (a b : Vector UInt8 n) : Vector UInt8 n := Vector.zipWith (· ^^^ ·) a b

/-- Moves row `r` of the state by `r` columns to the left. -/
def shiftRows (state : Block) : Block :=
  .ofFn fun k => state.get ⟨k.val % 4 + 4 * ((k.val / 4 + k.val % 4) % 4), by omega⟩

def mixMatrix : Vector Column 4 :=
  #v[#v[2, 3, 1, 1], #v[1, 2, 3, 1], #v[1, 1, 2, 3], #v[3, 1, 1, 2]]

def mixColumns (state : Block) : Block :=
  .ofFn fun k =>
    let row := mixMatrix.get ⟨k.val % 4, by omega⟩
    let product (j : Fin 4) := times (row.get j) (state.get ⟨4 * (k.val / 4) + j.val, by omega⟩)
    product 0 ^^^ product 1 ^^^ product 2 ^^^ product 3

/-- The word added at the start of the `n`th key length, a power of x in the first byte. -/
def roundConstant (n : Nat) : Column := #v[(n - 1).repeat timesX 1, 0, 0, 0]

/-- What word `i` of the key schedule takes from the word before it. -/
def scheduleTerm (keyWords i : Nat) (word : Column) : Column :=
  if i % keyWords = 0 then
    add (substitute #v[word[1], word[2], word[3], word[0]]) (roundConstant (i / keyWords))
  else if 6 < keyWords ∧ i % keyWords = 4 then substitute word
  else word

def extendSchedule (keyWords : Nat) : Nat → List Column → List Column
  | 0, words => words
  | n + 1, words =>
    let i := words.length
    let oldest := words.getD (i - keyWords) (.replicate 4 0)
    let newest := words.getD (i - 1) (.replicate 4 0)
    extendSchedule keyWords n (words ++ [add oldest (scheduleTerm keyWords i newest)])

/-- The words of the key, and those that follow from them. -/
def schedule (size : KeySize) (key : Vector UInt8 (4 * size.words)) : List Column :=
  let words := List.ofFn fun i : Fin size.words => (.ofFn fun j => key[4 * i.val + j.val] : Column)
  extendSchedule size.words (4 * (size.rounds + 1) - size.words) words

/-- The key of round `r`, four words of the schedule. -/
def roundKey (words : List Column) (r : Nat) : Block :=
  .ofFn fun k => (words.getD (4 * r + k.val / 4) (.replicate 4 0)).get ⟨k.val % 4, by omega⟩

/-- Encrypts a block. The last round does not mix the columns. -/
def encrypt (size : KeySize) (key : Vector UInt8 (4 * size.words)) (block : Block) : Block :=
  let words := schedule size key
  let round (state : Block) (r : Nat) : Block :=
    add (mixColumns (shiftRows (substitute state))) (roundKey words (r + 1))
  let state := (List.range (size.rounds - 1)).foldl round (add block (roundKey words 0))
  add (shiftRows (substitute state)) (roundKey words size.rounds)

/-- The block of a counter: the initialization vector, and the counter in four bytes, the most
significant one first. -/
def counterBlock (iv : Vector UInt8 12) (counter : UInt32) : Block :=
  iv ++ (#v[(counter >>> 24).toUInt8, (counter >>> 16).toUInt8, (counter >>> 8).toUInt8,
    counter.toUInt8] : Column)

end RankOne.Aes.Cipher
