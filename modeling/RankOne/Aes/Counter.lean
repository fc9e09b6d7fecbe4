import RankOne.Aes.Block

/-! AES in counter mode. Block `i` of the keystream is the encryption of the initialization
vector and the 32-bit counter of the block, most significant byte first. -/
namespace RankOne.Aes

/-- The bytes of an initialization vector, the rest of a counter block. -/
def ivBytes : Nat := 12

def defaultCounter : UInt32 := 2

/-- The blocks that cover a number of bytes. -/
def blocksOf (bytes : Nat) : Nat := (bytes + blockBytes - 1) / blockBytes

def keystream (roundKeys : List (List Bits)) (iv : List Bits) : Nat → UInt32 → Circuit (List Bits)
  | 0, _ => pure []
  | n + 1, counter => do
    let suffix := chunksOf 8 (Bits.constBytes (Layout.wordBytesMsb counter))
    let block ← encryptBlock sbox roundKeys (iv ++ suffix)
    return block ++ (← keystream roundKeys iv n (counter + 1))

/-- Adds the keystream to a message. The counters are constants, so that a message too long for
them is rejected. -/
def counterXor (size : KeySize) (key iv : Bits) (counter : UInt32) (message : Bits)
    (loc : String) : Circuit Bits :=
  let blocks := blocksOf (message.length / 8)
  if iv.length ≠ 8 * ivBytes then
    Circuit.reject (.width "AES-CTR IV" (8 * ivBytes) iv.length)
  else if message.length % 8 ≠ 0 then
    Circuit.reject (.width "AES-CTR message" (8 * (message.length / 8 + 1)) message.length)
  else if blocks = 0 then pure []
  else if UInt32.size ≤ counter.toNat + blocks - 1 then
    Circuit.reject (.counterOverflow counter.toNat blocks)
  else do
    let roundKeys ← keyExpansion sbox size key
    let stream ← keystream roundKeys (chunksOf 8 iv) blocks counter
    Bits.xor message (stream.flatten.take message.length) loc

structure CounterCircuit where
  keySize : KeySize
  lenBytes : UInt64
  initialCounter : UInt32
  deriving DecidableEq

structure CounterInput where
  key : List UInt8
  iv : Vector UInt8 12
  message : List UInt8
  deriving DecidableEq

namespace CounterCircuit

/-- A circuit for a key of `keyBytes` bytes, from the default counter on. -/
def create (keyBytes : Nat) (lenBytes : UInt64) : Except CompilationError CounterCircuit := do
  return ⟨← KeySize.ofBytes keyBytes, lenBytes, defaultCounter⟩

def withInitialCounter (self : CounterCircuit) (counter : UInt32) : CounterCircuit :=
  { self with initialCounter := counter }

def circuit (self : CounterCircuit) (input : Option CounterInput) : Circuit Bytes := do
  let key ← Bits.witnessBytes "AES key" self.keySize.bytes (input.map (·.key)) gadgetLoc
  let iv ← Bits.witnessBytes "IV" ivBytes (input.map (·.iv.toList)) gadgetLoc
  let message ←
    Bits.witnessBytes "message" self.lenBytes.toNat (input.map (·.message)) gadgetLoc
  return ⟨← counterXor self.keySize key iv self.initialCounter message gadgetLoc⟩

end CounterCircuit
end RankOne.Aes
