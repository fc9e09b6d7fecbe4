import RankOne.ChaCha.Gadget
import RankOne.Mimc.Gadget

/-! Commitments to a ChaCha20 decryption. A circuit decrypts a private ciphertext and commits to
the plaintext and to the ciphertext: each is packed into field elements and hashed. -/
namespace RankOne.Commitment

/-- The order of the bits of each byte in the packed stream. -/
inductive BitOrder where
  | lsbFirst
  | msbFirst
  deriving DecidableEq, Repr

namespace BitOrder

def arrange : BitOrder → Bits → Bits
  | lsbFirst, bits => bits
  | msbFirst, bits => Bits.reverseInBytes bits

def expand : BitOrder → List UInt8 → List Bool
  | lsbFirst, bytes => Layout.bytesToBits bytes
  | msbFirst, bytes => Layout.bytesToBitsMsb bytes

def name : BitOrder → String
  | lsbFirst => "LsbFirst"
  | msbFirst => "MsbFirst"

end BitOrder

/-- The largest whole number of bytes below the size of the field, in bits. -/
def defaultChunkBits : UInt64 := 248

structure CommitmentCircuit where
  lenBytes : UInt64
  chunkBits : UInt64
  bitOrder : BitOrder
  params : Mimc.Params
  deriving DecidableEq

structure CommitmentInput where
  key : Vector UInt8 32
  nonce : Vector UInt8 12
  counter : UInt32
  ciphertext : List UInt8
  deriving DecidableEq

def commit (params : Mimc.Params) (order : BitOrder) (chunk : Nat) (bits : Bits) :
    Circuit Expr := do
  let packed ← Bits.pack chunk (order.arrange bits)
  let digest ← Mimc.spongeGadget params packed 1
  return digest.headD 0

namespace CommitmentCircuit

/-- A circuit with the usual chunks, bit order and parameters. -/
def create (lenBytes : UInt64) : CommitmentCircuit :=
  ⟨lenBytes, defaultChunkBits, .lsbFirst, .sponge⟩

/-- The same circuit with another layout of the bits. -/
def withPacking (self : CommitmentCircuit) (order : BitOrder) (chunkBits : UInt64) :
    CommitmentCircuit :=
  { self with bitOrder := order, chunkBits }

def circuit (self : CommitmentCircuit) (input : Option CommitmentInput) :
    Circuit (Expr × Expr) := do
  let key ← Bits.witnessBytes "ChaCha20 key" 32 (input.map (·.key.toList)) gadgetLoc
  let nonce ← Bits.witnessBytes "ChaCha20 nonce" 12 (input.map (·.nonce.toList)) gadgetLoc
  let counter ← Word.witness (input.map (·.counter)) gadgetLoc
  let ciphertext ←
    Bits.witnessBytes "ciphertext" self.lenBytes.toNat (input.map (·.ciphertext)) gadgetLoc
  let plaintext ← ChaCha.xorBits key nonce counter ciphertext gadgetLoc
  let chunk := self.chunkBits.toNat
  let first ← commit self.params self.bitOrder chunk plaintext
  let second ← commit self.params self.bitOrder chunk ciphertext
  return (first, second)

end CommitmentCircuit

def commitBytes (params : Mimc.Params) (order : BitOrder) (chunk : Nat) (bytes : List UInt8) :
    Except EncodingError Fr := do
  if chunk = 0 then throw .zeroChunk
  let packed ← (chunksOf chunk (order.expand bytes)).mapM Fr.ofBits
  return (Mimc.hash params packed 1).headD 0

/-- The commitments to the plaintext and to the ciphertext, computed without a circuit. -/
def commitments (circuit : CommitmentCircuit) (input : CommitmentInput) :
    Except EncodingError (Fr × Fr) := do
  let plaintext := ChaCha.xor input.key input.nonce input.counter input.ciphertext
  let chunk := circuit.chunkBits.toNat
  let first ← commitBytes circuit.params circuit.bitOrder chunk plaintext
  let second ← commitBytes circuit.params circuit.bitOrder chunk input.ciphertext
  return (first, second)

end RankOne.Commitment
