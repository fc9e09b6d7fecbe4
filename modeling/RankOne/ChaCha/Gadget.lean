import RankOne.ChaCha.Stream
import RankOne.Word

/-! ChaCha20 as a circuit, on words and on bits. -/
namespace RankOne.ChaCha

def keyLength : Nat := 8
def nonceLength : Nat := 3

def wordAt (state : List Word) (i : Nat) : Circuit Word :=
  match state[i]? with
  | some word => pure word
  | none => Circuit.reject (.indexOutOfRange i)

/-- Adds word `z` to word `x`, adds the result into word `y` without carries, and rotates. -/
def lineGadget (state : List Word) (x y z k : Nat) : Circuit (List Word) := do
  let sum ← (← wordAt state x).add (← wordAt state z) gadgetLoc
  let state := state.set x sum
  let mixed ← (← wordAt state y).xor (← wordAt state x) gadgetLoc
  return state.set y (mixed.rotateLeft k)

def quarterRoundGadget (state : List Word) (a b c d : Nat) : Circuit (List Word) := do
  let state ← lineGadget state a d b rotations[0]!
  let state ← lineGadget state c b d rotations[1]!
  let state ← lineGadget state a d b rotations[2]!
  lineGadget state c b d rotations[3]!

/-- The quarter rounds of all twenty rounds, in order. -/
def schedule : List Quarter := (List.replicate doubleRounds doubleRound).flatten

def roundsGadget (state : List Word) : Circuit (List Word) :=
  schedule.foldlM (fun state q => quarterRoundGadget state q.a q.b q.c q.d) state

def checkLength (what : String) (expected : Nat) (words : List Word) : Circuit Unit :=
  if words.length = expected then pure ()
  else Circuit.reject (.width what (32 * expected) (32 * words.length))

def blockGadget (key : List Word) (counter : Word) (nonce : List Word) : Circuit (List Word) := do
  checkLength "ChaCha20 key" keyLength key
  checkLength "ChaCha20 nonce" nonceLength nonce
  let state := constants.toList.map Word.const ++ key ++ [counter] ++ nonce
  let mixed ← roundsGadget state
  (mixed.zip state).mapM fun (w, w0) => w.add w0 gadgetLoc

def xorBlock (key nonce : List Word) (counter : Word) (message : List Word) (loc : String) :
    Circuit (List Word) := do
  let stream ← blockGadget key counter nonce
  (message.zip stream).mapM fun (m, k) => m.xor k loc

/-- Adds the keystream to runs of words. The counter is incremented between blocks. -/
def xorBlocks (key nonce : List Word) (loc : String) :
    Word → List (List Word) → Circuit (List Word)
  | _, [] => pure []
  | counter, [chunk] => xorBlock key nonce counter chunk loc
  | counter, chunk :: chunks => do
    let out ← xorBlock key nonce counter chunk loc
    let counter ← counter.add (Word.const 1) loc
    return out ++ (← xorBlocks key nonce loc counter chunks)

def xorWords (key nonce : List Word) (counter : Word) (message : List Word) (loc : String) :
    Circuit (List Word) :=
  xorBlocks key nonce loc counter (chunksOf blockWords message)

def wordsOf (bits : Bits) : Circuit (List Word) := (chunksOf 32 bits).mapM Word.ofBits

def xorBitBlock (key nonce : List Word) (counter : Word) (message : Bits) (loc : String) :
    Circuit Bits := do
  let stream ← blockGadget key counter nonce
  Bits.xor message ((stream.flatMap Word.bits).take message.length) loc

/-- Adds the keystream to runs of bits. -/
def xorBitBlocks (key nonce : List Word) (loc : String) : Word → List Bits → Circuit Bits
  | _, [] => pure []
  | counter, [chunk] => xorBitBlock key nonce counter chunk loc
  | counter, chunk :: chunks => do
    let out ← xorBitBlock key nonce counter chunk loc
    let counter ← counter.add (Word.const 1) loc
    return out ++ (← xorBitBlocks key nonce loc counter chunks)

/-- Encrypts or decrypts the bits of a message of any length. -/
def xorBits (key nonce : Bits) (counter : Word) (message : Bits) (loc : String) : Circuit Bits :=
  if key.length ≠ 32 * keyLength then
    Circuit.reject (.width "ChaCha20 key" (32 * keyLength) key.length)
  else if nonce.length ≠ 32 * nonceLength then
    Circuit.reject (.width "ChaCha20 nonce" (32 * nonceLength) nonce.length)
  else do
    let key ← wordsOf key
    let nonce ← wordsOf nonce
    xorBitBlocks key nonce loc counter (chunksOf (32 * blockWords) message)

structure StreamCircuit where
  lenWords : UInt64
  deriving DecidableEq

structure StreamInput where
  key : Vector UInt32 8
  nonce : Vector UInt32 3
  counter : UInt32
  message : List UInt32
  deriving DecidableEq

/-- Allocates words one after the other. Without values, `len` words are left open. -/
def witnessWords (len : Nat) (values : Option (List UInt32)) : Circuit (List Word) :=
  Word.witnesses len (values.getD []) gadgetLoc

namespace StreamCircuit

def checkInput (self : StreamCircuit) (input : Option StreamInput) : Circuit Unit :=
  match input with
  | some input =>
    if input.message.length = self.lenWords.toNat then pure ()
    else .fail (.runtime
      (.inputLength "message (in words)" self.lenWords.toNat input.message.length))
  | none => pure ()

def circuit (self : StreamCircuit) (input : Option StreamInput) : Circuit (List Word) := do
  self.checkInput input
  let key ← witnessWords keyLength (input.map (·.key.toList))
  let nonce ← witnessWords nonceLength (input.map (·.nonce.toList))
  let counter ← Word.witness (input.map (·.counter)) gadgetLoc
  let message ← witnessWords self.lenWords.toNat (input.map (·.message))
  xorWords key nonce counter message gadgetLoc

end StreamCircuit
end RankOne.ChaCha
