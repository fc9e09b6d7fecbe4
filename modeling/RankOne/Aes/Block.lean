import RankOne.Aes.KeySize
import RankOne.Aes.Substitution

/-! The AES block cipher over bits. A block is 16 bytes of 8 bits; byte `k` is in row `k % 4` and
column `k / 4` of the state. -/
namespace RankOne.Aes

def blockBytes : Nat := 16

def roundConstants : List UInt8 := [0x01, 0x02, 0x04, 0x08, 0x10, 0x20, 0x40, 0x80, 0x1b, 0x36]

def substituteBytes (table : SubstitutionTable) (bytes : List Bits) : Circuit (List Bits) :=
  bytes.mapM fun byte => substitute table byte gadgetLoc

/-- Adds bytes up to the end of the shorter list. -/
def xorBytes (a b : List Bits) : Circuit (List Bits) :=
  (a.zip b).mapM fun (x, y) => Bits.xor x y gadgetLoc

/-- Word `i` of the key schedule, from the word before it and the word a key length before. -/
def nextKeyWord (table : SubstitutionTable) (keyWords i : Nat) (oldest newest : List Bits) :
    Circuit (List Bits) := do
  let mixed ←
    if i % keyWords = 0 then
      match ← substituteBytes table (newest.rotateLeft 1), roundConstants[i / keyWords - 1]? with
      | first :: rest, some c =>
        pure ((← Bits.xor first (Bits.constBytes [c]) gadgetLoc) :: rest)
      | _, _ => Circuit.reject (.indexOutOfRange i)
    else if 6 < keyWords ∧ i % keyWords = 4 then substituteBytes table newest
    else pure newest
  xorBytes oldest mixed

/-- `n` words of the key schedule from word `i` on, given the words of a key length before it. -/
def scheduleFrom (table : SubstitutionTable) (keyWords : Nat) :
    (n i : Nat) → List (List Bits) → Circuit (List (List Bits))
  | 0, _, _ => pure []
  | n + 1, i, window => do
    let word ← nextKeyWord table keyWords i (window.headD []) (window.getLastD [])
    return word :: (← scheduleFrom table keyWords n (i + 1) (window.tail ++ [word]))

/-- Expands a key into round keys of 16 bytes, one more than there are rounds. -/
def keyExpansion (table : SubstitutionTable) (size : KeySize) (key : Bits) :
    Circuit (List (List Bits)) :=
  if key.length = 8 * size.bytes then do
    let keyWords := chunksOf 4 (chunksOf 8 key)
    let total := 4 * (size.rounds + 1)
    let words ← scheduleFrom table size.words (total - size.words) size.words keyWords
    return (chunksOf 4 (keyWords ++ words)).map List.flatten
  else Circuit.reject (.width "AES key" (8 * size.bytes) key.length)

def shiftRows (state : List Bits) : Circuit (List Bits) :=
  (List.range blockBytes).mapM fun k =>
    let source := k % 4 + 4 * ((k / 4 + k % 4) % 4)
    match state[source]? with
    | some byte => pure byte
    | none => Circuit.reject (.indexOutOfRange source)

/-- The product with x: a shift, and the reduction polynomial if the top bit was set. -/
def double : Bits → Circuit Bits
  | [a0, a1, a2, a3, a4, a5, a6, a7] => do
    let b1 ← a7.xor a0 gadgetLoc
    let b3 ← a7.xor a2 gadgetLoc
    let b4 ← a7.xor a3 gadgetLoc
    return [a7, b1, a1, b3, b4, a4, a5, a6]
  | byte => Circuit.reject (.indexOutOfRange byte.length)

/-- A byte of a mixed column, from the byte, the one below it and the sum of the column. -/
def mixByte (sum byte below : Bits) : Circuit Bits := do
  let doubled ← double (← Bits.xor byte below gadgetLoc)
  Bits.xor (← Bits.xor byte sum gadgetLoc) doubled gadgetLoc

def mixColumn : List Bits → Circuit (List Bits)
  | [a, b, c, d] => do
    let sum ← Bits.xor a b gadgetLoc
    let sum ← Bits.xor sum c gadgetLoc
    let sum ← Bits.xor sum d gadgetLoc
    [(a, b), (b, c), (c, d), (d, a)].mapM fun (byte, below) => mixByte sum byte below
  | column => Circuit.reject (.indexOutOfRange column.length)

def mixColumns (state : List Bits) : Circuit (List Bits) := do
  return (← (chunksOf 4 state).mapM mixColumn).flatten

/-- The rounds for a list of round keys. The last round does not mix the columns. -/
def encryptRounds (table : SubstitutionTable) : List (List Bits) → List Bits → Circuit (List Bits)
  | [], state => pure state
  | [key], state => do
    xorBytes (← shiftRows (← substituteBytes table state)) key
  | key :: keys, state => do
    let mixed ← mixColumns (← shiftRows (← substituteBytes table state))
    encryptRounds table keys (← xorBytes mixed key)

def encryptBlock (table : SubstitutionTable) (roundKeys : List (List Bits)) (block : List Bits) :
    Circuit (List Bits) :=
  if block.length = blockBytes then
    match roundKeys with
    | whitening :: key :: keys => do
      encryptRounds table (key :: keys) (← xorBytes block whitening)
    | _ => Circuit.reject .tooFewRoundKeys
  else Circuit.reject (.width "AES block" blockBytes block.length)

structure BlockCircuit where
  keySize : KeySize
  deriving DecidableEq

structure BlockInput where
  key : List UInt8
  block : Vector UInt8 16
  deriving DecidableEq

def BlockCircuit.circuit (self : BlockCircuit) (input : Option BlockInput) : Circuit Bytes := do
  let key ← Bits.witnessBytes "AES key" self.keySize.bytes (input.map (·.key)) gadgetLoc
  let block ← Bits.witnessBytes "AES block" blockBytes (input.map (·.block.toList)) gadgetLoc
  let roundKeys ← keyExpansion sbox self.keySize key
  return ⟨(← encryptBlock sbox roundKeys (chunksOf 8 block)).flatten⟩

end RankOne.Aes
