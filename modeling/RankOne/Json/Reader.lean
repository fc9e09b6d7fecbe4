import RankOne.Mimc.Params

/-! Reading typed values from JSON text. A reader consumes the characters of one value; what the
value has to be is known beforehand, so no document is built. -/
namespace RankOne.Json

inductive ReadError where
  /-- The text is no JSON, or no value of the type. -/
  | malformed
  /-- The text gives parameters that are not valid. -/
  | invalidParams (e : Mimc.ParamsError)
  deriving DecidableEq

abbrev Reader := StateT (List Char) (Except ReadError)

namespace Reader

def malformed : Reader α := throw .malformed

def isBlank (c : Char) : Bool := c = ' ' || c = '\n' || c = '\t' || c = '\r'

/-- The next character that is not blank, which is consumed. -/
def token : Reader Char := fun s =>
  match s.dropWhile isBlank with
  | c :: rest => .ok (c, rest)
  | [] => .error .malformed

/-- The next character that is not blank, which stays. -/
def peek : Reader Char := fun s =>
  match s.dropWhile isBlank with
  | c :: rest => .ok (c, c :: rest)
  | [] => .error .malformed

def expect (c : Char) : Reader Unit := do
  if (← token) = c then pure () else malformed

/-- The characters of a literal, right where the text stands. -/
def literal (cs : List Char) : Reader Unit := fun s =>
  if cs.isPrefixOf s then .ok ((), s.drop cs.length) else .error .malformed

def digitsValue (cs : List Char) : Nat := cs.foldl (fun n c => 10 * n + (c.toNat - '0'.toNat)) 0

/-- Digits without a leading zero. -/
def isNumeral : List Char → Bool
  | [] => false
  | [_] => true
  | c :: _ => c ≠ '0'

/-- A natural number below a bound. It has no sign, fraction or exponent. -/
def nat (bound : Nat) : Reader Nat := do
  let _ ← peek
  let s ← get
  let digits := s.takeWhile Char.isDigit
  let rest := s.dropWhile Char.isDigit
  let ends := match rest with
    | c :: _ => c ≠ '.' && c ≠ 'e' && c ≠ 'E'
    | [] => true
  if isNumeral digits && ends && digitsValue digits < bound then
    set rest
    return digitsValue digits
  else malformed

def byte : Reader UInt8 := do return UInt8.ofNat (← nat UInt8.size)
def word : Reader UInt32 := do return UInt32.ofNat (← nat UInt32.size)
def long : Reader UInt64 := do return UInt64.ofNat (← nat UInt64.size)

/-- A part of a string: a character, or a 16-bit code given by an escape. -/
inductive Piece where
  | char (c : Char) (escaped : Bool)
  | code (n : Nat)
  deriving DecidableEq

def hexValue? (cs : List Char) : Option Nat := do
  return (← cs.mapM Hex.digit?).foldl (fun n d => 16 * n + d) 0

def escape? : Char → Option Char
  | '"' => some '"'
  | '\\' => some '\\'
  | '/' => some '/'
  | 'b' => some '\x08'
  | 'f' => some '\x0c'
  | 'n' => some '\n'
  | 'r' => some '\r'
  | 't' => some '\t'
  | _ => none

/-- The parts of a string up to its closing quote. -/
def piecesFrom : List Char → Except ReadError (List Piece × List Char)
  | [] => .error .malformed
  | '"' :: rest => .ok ([], rest)
  | '\\' :: 'u' :: a :: b :: c :: d :: rest => do
    match hexValue? [a, b, c, d] with
    | some n =>
      let (pieces, rest) ← piecesFrom rest
      return (.code n :: pieces, rest)
    | none => throw .malformed
  | '\\' :: c :: rest => do
    match escape? c with
    | some c =>
      let (pieces, rest) ← piecesFrom rest
      return (.char c true :: pieces, rest)
    | none => throw .malformed
  | c :: rest => do
    let (pieces, rest) ← piecesFrom rest
    return (.char c false :: pieces, rest)

def pieces : Reader (List Piece) := do
  expect '"'
  fun s => piecesFrom s

/-- Control characters have to be escaped. -/
def Piece.plain : Piece → Bool
  | char c escaped => escaped || 0x20 ≤ c.toNat
  | code _ => true

def isLead (n : Nat) : Bool := 0xd800 ≤ n && n < 0xdc00
def isTrail (n : Nat) : Bool := 0xdc00 ≤ n && n < 0xe000

/-- Joins the two halves of codes beyond 16 bits; a half on its own stays as it is. -/
def joinCodes : List Piece → List Nat
  | [] => []
  | .code m :: .code n :: rest =>
    if isLead m && isTrail n then
      (0x10000 + 0x400 * (m - 0xd800) + (n - 0xdc00)) :: joinCodes rest
    else m :: joinCodes (.code n :: rest)
  | .code m :: rest => m :: joinCodes rest
  | .char c _ :: rest => c.toNat :: joinCodes rest

def text : Reader (List Char) := do
  let pieces ← pieces
  let codes := joinCodes pieces
  if pieces.all Piece.plain && codes.all fun n => !isLead n && !isTrail n then
    return codes.map Char.ofNat
  else malformed

/-- The bytes that encode a code, one to four of them. -/
def codeBytes (n : Nat) : List UInt8 :=
  let tail (k : Nat) : UInt8 := UInt8.ofNat (0x80 + n >>> (6 * k) % 64)
  if n < 0x80 then [UInt8.ofNat n]
  else if n < 0x800 then [UInt8.ofNat (0xc0 + n >>> 6), tail 0]
  else if n < 0x10000 then [UInt8.ofNat (0xe0 + n >>> 12), tail 1, tail 0]
  else [UInt8.ofNat (0xf0 + n >>> 18), tail 2, tail 1, tail 0]

/-- A string for its bytes. Control characters and halves of codes are accepted. -/
def textBytes : Reader (List UInt8) := do
  return (joinCodes (← pieces)).flatMap codeBytes

/-- The items of an array after the first bracket; `fuel` bounds their number. -/
def itemsFrom (item : Reader α) : Nat → Reader (List α)
  | 0 => malformed
  | fuel + 1 => do
    let x ← item
    match ← token with
    | ',' => return x :: (← itemsFrom item fuel)
    | ']' => return [x]
    | _ => malformed

def list (item : Reader α) : Reader (List α) := do
  expect '['
  if (← peek) = ']' then
    expect ']'
    return []
  else itemsFrom item (← get).length

def vector (n : Nat) (item : Reader α) : Reader (Vector α n) := do
  let xs ← list item
  if h : xs.length = n then return ⟨xs.toArray, h⟩ else malformed

def byteString : Reader (List UInt8) := do
  if (← peek) = '"' then textBytes else list byte

/-- Drops the digits, at least one of them. -/
def skipDigits : Reader Unit := fun s =>
  match s.takeWhile Char.isDigit with
  | [] => .error .malformed
  | _ => .ok ((), s.dropWhile Char.isDigit)

def skipIf (p : Char → Bool) : Reader Bool := fun s =>
  match s with
  | c :: rest => if p c then .ok (true, rest) else .ok (false, s)
  | [] => .ok (false, s)

def skipNumber : Reader Unit := do
  let _ ← skipIf (· = '-')
  if !(← skipIf (· = '0')) then skipDigits
  else if (← get).head?.any Char.isDigit then malformed
  if ← skipIf (· = '.') then skipDigits
  if ← skipIf fun c => c = 'e' || c = 'E' then
    let _ ← skipIf fun c => c = '+' || c = '-'
    skipDigits

def skipText : Reader Unit := do
  if (← pieces).all Piece.plain then pure () else malformed

mutual

/-- Drops a value of any kind; `fuel` bounds the values within. -/
def skipValue : Nat → Reader Unit
  | 0 => malformed
  | fuel + 1 => do
    match ← peek with
    | 'n' => literal ['n', 'u', 'l', 'l']
    | 't' => literal ['t', 'r', 'u', 'e']
    | 'f' => literal ['f', 'a', 'l', 's', 'e']
    | '"' => skipText
    | '[' => do
      expect '['
      if (← peek) = ']' then expect ']' else skipItems fuel
    | '\x7b' => do
      expect '\x7b'
      if (← peek) = '\x7d' then expect '\x7d' else skipMembers fuel
    | _ => skipNumber

def skipItems : Nat → Reader Unit
  | 0 => malformed
  | fuel + 1 => do
    skipValue fuel
    match ← token with
    | ',' => skipItems fuel
    | ']' => pure ()
    | _ => malformed

def skipMembers : Nat → Reader Unit
  | 0 => malformed
  | fuel + 1 => do
    skipText
    expect ':'
    skipValue fuel
    match ← token with
    | ',' => skipMembers fuel
    | '\x7d' => pure ()
    | _ => malformed

end

def skip : Reader Unit := do skipValue ((← get).length + 1)

/-- A choice by name: a string, or an object whose only member is null. -/
def variant (choices : List (List Char × α)) : Reader α := do
  let choose (name : List Char) : Reader α :=
    match choices.lookup name with
    | some a => pure a
    | none => malformed
  if (← peek) = '\x7b' then
    expect '\x7b'
    let a ← choose (← text)
    expect ':'
    let _ ← peek
    literal ['n', 'u', 'l', 'l']
    expect '\x7d'
    return a
  else choose (← text)

/-- Reads a whole text, which ends after the value. -/
def run (reader : Reader α) (source : String) : Except ReadError α := do
  let (a, rest) ← reader source.toList
  if rest.all isBlank then return a else throw .malformed

end Reader
end RankOne.Json
