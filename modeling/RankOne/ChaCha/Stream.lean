import RankOne.Layout

/-! The ChaCha20 stream cipher on 32-bit words. The state is 16 words: 4 constants, 8 key words,
the block counter and 3 nonce words. -/
namespace RankOne.ChaCha

/-- The words of "expand 32-byte k". -/
def constants : Vector UInt32 4 := #v[0x61707865, 0x3320646e, 0x79622d32, 0x6b206574]

def rotations : Vector Nat 4 := #v[16, 12, 8, 7]

structure Quarter where
  a : Fin 16
  b : Fin 16
  c : Fin 16
  d : Fin 16
  deriving DecidableEq, Repr

/-- The columns, then the diagonals. -/
def doubleRound : List Quarter := [
  ⟨0, 4, 8, 12⟩, ⟨1, 5, 9, 13⟩, ⟨2, 6, 10, 14⟩, ⟨3, 7, 11, 15⟩,
  ⟨0, 5, 10, 15⟩, ⟨1, 6, 11, 12⟩, ⟨2, 7, 8, 13⟩, ⟨3, 4, 9, 14⟩]

def doubleRounds : Nat := 10

def blockWords : Nat := 16

abbrev State := Vector UInt32 16

def rotateLeft (w : UInt32) (n : Nat) : UInt32 :=
  w <<< UInt32.ofNat n ||| w >>> UInt32.ofNat (32 - n)

/-- Adds word `z` to word `x`, adds the result into word `y` without carries, and rotates. -/
def line (s : State) (x y z : Fin 16) (k : Nat) : State :=
  let s := s.set x (s[x] + s[z])
  s.set y (rotateLeft (s[y] ^^^ s[x]) k)

def quarterRound (s : State) (q : Quarter) : State :=
  let s := line s q.a q.d q.b rotations[0]!
  let s := line s q.c q.b q.d rotations[1]!
  let s := line s q.a q.d q.b rotations[2]!
  line s q.c q.b q.d rotations[3]!

/-- The twenty rounds, without the final addition. -/
def rounds (s : State) : State :=
  doubleRounds.repeat (fun s => doubleRound.foldl quarterRound s) s

def initialState (key : Vector UInt32 8) (counter : UInt32) (nonce : Vector UInt32 3) : State :=
  constants ++ key ++ #v[counter] ++ nonce

def block (key : Vector UInt32 8) (counter : UInt32) (nonce : Vector UInt32 3) : State :=
  let s := initialState key counter nonce
  Vector.zipWith (· + ·) (rounds s) s

/-- The little-endian words of a byte string. -/
def keyWords (bytes : Vector UInt8 (4 * n)) : Vector UInt32 n :=
  .ofFn fun i => UInt32.ofNat (Layout.bytesValue
    [bytes[4 * i.val], bytes[4 * i.val + 1], bytes[4 * i.val + 2], bytes[4 * i.val + 3]])

/-- Adds the keystream, from a counter on, to runs of 64 bytes. -/
def xorChunks (key : Vector UInt32 8) (nonce : Vector UInt32 3) :
    UInt32 → List (List UInt8) → List UInt8
  | _, [] => []
  | counter, chunk :: chunks =>
    let stream := (block key counter nonce).toList.flatMap Layout.wordBytes
    chunk.zipWith (· ^^^ ·) stream ++ xorChunks key nonce (counter + 1) chunks

def xor (key : Vector UInt8 32) (nonce : Vector UInt8 12) (counter : UInt32)
    (message : List UInt8) : List UInt8 :=
  xorChunks (keyWords (n := 8) key) (keyWords (n := 3) nonce) counter
    (chunksOf (4 * blockWords) message)

end RankOne.ChaCha
