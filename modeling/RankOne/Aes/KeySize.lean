import RankOne.Error

/-! The three variants of AES. -/
namespace RankOne.Aes

inductive KeySize where
  | aes128
  | aes192
  | aes256
  deriving DecidableEq, Repr

namespace KeySize

def rounds : KeySize → Nat
  | aes128 => 10
  | aes192 => 12
  | aes256 => 14

/-- The number of 32-bit words of the key. -/
def words : KeySize → Nat
  | aes128 => 4
  | aes192 => 6
  | aes256 => 8

def bytes (size : KeySize) : Nat := 4 * size.words

def ofBytes : Nat → Except CompilationError KeySize
  | 16 => .ok aes128
  | 24 => .ok aes192
  | 32 => .ok aes256
  | n => .error (.keyLength n)

def name : KeySize → String
  | aes128 => "Aes128"
  | aes192 => "Aes192"
  | aes256 => "Aes256"

end KeySize
end RankOne.Aes
