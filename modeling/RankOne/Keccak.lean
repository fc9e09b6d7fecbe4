/-! The hash function Keccak-256. The state is a 5 by 5 array of 64-bit lanes, lane (x, y) at
index x + 5 y. -/
namespace RankOne.Keccak

abbrev State := Vector UInt64 25

/-- The lane (x, y), coordinates modulo five. -/
def State.lane (a : State) (x y : Nat) : UInt64 :=
  a.get ⟨x % 5 + 5 * (y % 5), by omega⟩

def rotateLeft (w : UInt64) (n : UInt64) : UInt64 := w <<< n ||| w >>> (64 - n)

/-- Rotation amounts, indexed as the lanes. -/
def rotations : Vector UInt64 25 := #v[
  0, 1, 62, 28, 27, 36, 44, 6, 55, 20, 3, 10, 43, 25, 39, 41, 45, 15, 21, 8, 18, 2, 61, 56, 14]

def roundConstants : List UInt64 := [
  0x0000000000000001, 0x0000000000008082, 0x800000000000808a, 0x8000000080008000,
  0x000000000000808b, 0x0000000080000001, 0x8000000080008081, 0x8000000000008009,
  0x000000000000008a, 0x0000000000000088, 0x0000000080008009, 0x000000008000000a,
  0x000000008000808b, 0x800000000000008b, 0x8000000000008089, 0x8000000000008003,
  0x8000000000008002, 0x8000000000000080, 0x000000000000800a, 0x800000008000000a,
  0x8000000080008081, 0x8000000000008080, 0x0000000080000001, 0x8000000080008008]

def State.build (f : Nat → Nat → UInt64) : State := .ofFn fun i => f (i.val % 5) (i.val / 5)

def State.columnParity (a : State) (x : Nat) : UInt64 :=
  a.lane x 0 ^^^ a.lane x 1 ^^^ a.lane x 2 ^^^ a.lane x 3 ^^^ a.lane x 4

def theta (a : State) : State :=
  let parity : Vector UInt64 5 := .ofFn fun x => a.columnParity x.val
  let parityAt (x : Nat) : UInt64 := parity.get ⟨x % 5, by omega⟩
  .build fun x y => a.lane x y ^^^ parityAt (x + 4) ^^^ rotateLeft (parityAt (x + 1)) 1

/-- Rotates every lane and moves lane (x, y) to (y, 2 x + 3 y). -/
def rhoPi (a : State) : State :=
  let rotated : State := Vector.zipWith rotateLeft a rotations
  .build fun x y => rotated.lane (x + 3 * y) x

def chi (a : State) : State :=
  .build fun x y => a.lane x y ^^^ (~~~ a.lane (x + 1) y &&& a.lane (x + 2) y)

def round (a : State) (constant : UInt64) : State :=
  let b := chi (rhoPi (theta a))
  b.set 0 (b[0] ^^^ constant)

def permute (a : State) : State := roundConstants.foldl round a

/-- The bytes absorbed between two permutations. -/
def rate : Nat := 136

/-- A message closed by a one bit and, at the end of the last block, another one. -/
def pad (message : List UInt8) : List UInt8 :=
  let free := rate - message.length % rate
  if free = 1 then message ++ [0x81]
  else message ++ 0x01 :: List.replicate (free - 2) 0 ++ [0x80]

/-- The lane spelled by eight bytes, least significant first. -/
def laneOfBytes (bytes : List UInt8) : UInt64 :=
  bytes.foldr (fun byte lane => lane <<< 8 ||| byte.toUInt64) 0

def bytesOfLane (lane : UInt64) : List UInt8 :=
  (List.range 8).map fun i => (lane >>> (8 * i).toUInt64).toUInt8

/-- Absorbs the padded message block by block; `blocks` bounds their number. -/
def absorb : Nat → State → List UInt8 → State
  | 0, a, _ => a
  | blocks + 1, a, bytes =>
    let block := bytes.take rate
    let mixed : State := .ofFn fun i =>
      a[i] ^^^ laneOfBytes ((block.drop (8 * i.val)).take 8)
    absorb blocks (permute mixed) (bytes.drop rate)

def digest (message : List UInt8) : List UInt8 :=
  let padded := pad message
  let final := absorb (padded.length / rate) (Vector.replicate 25 0) padded
  (final.toList.take 4).flatMap bytesOfLane

end RankOne.Keccak
