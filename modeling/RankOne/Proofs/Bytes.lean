import RankOne.Proofs.Gadgets

/-! Exactness of byte inputs. The sizes for which they are allocated are 64-bit numbers. -/
namespace RankOne
open Circuit
variable {z : Assignment} {given : Prop} {n m : ℕ}

namespace Circuit
variable {α β : Type}

/-- A circuit that compiles has parts that compile. -/
theorem outcome_of_bind {c : Circuit α} {f : α → Circuit β} {r : β × ℕ}
    (h : (c >>= f).outcome n = some r) :
    ∃ a m, c.outcome n = some (a, m) ∧ (f a).outcome m = some r := by
  change (c.bind f).outcome n = some r at h
  rw [outcome_bind] at h
  obtain ⟨⟨a, m⟩, first, rest⟩ := Option.bind_eq_some_iff.mp h
  exact ⟨a, m, first, rest⟩

theorem size_eq {k : ℕ} (small : k < 2 ^ 64) : size k = pure k := if_pos small

theorem lt_of_size {k : ℕ} {r : ℕ × ℕ} (h : (size k).outcome n = some r) : k < 2 ^ 64 := by
  unfold size at h
  split at h
  · assumption
  · cases h

end Circuit

namespace Assignment

def bytes (z : Assignment) (n len : ℕ) : List UInt8 := Layout.bitsToBytes (z.bits n (8 * len))

theorem bytesToBits_bytes (z : Assignment) (n len : ℕ) :
    Layout.bytesToBits (z.bytes n len) = z.bits n (8 * len) :=
  Layout.bytesToBits_bitsToBytes (by simp)

@[simp] theorem length_bytes (z : Assignment) (n len : ℕ) : (z.bytes n len).length = len := by
  have lengths := congrArg List.length (z.bytesToBits_bytes n len)
  rw [Layout.length_bytesToBits, length_bits] at lengths
  omega

end Assignment

namespace Bits
variable {what loc : String} {len : ℕ} {bytes : List UInt8}

theorem witnessBytes_eq (length : bytes.length = len) (what loc : String) :
    witnessBytes what len (some bytes) loc = (do
      witness (← size (8 * len)) (some (Layout.bytesToBits bytes)) loc) := if_pos length

/-- The bytes of an input are free. -/
theorem exact_witnessBytes (length : bytes.length = len) (small : 8 * len < 2 ^ 64)
    (what loc : String) (spelled : given → bytes = z.bytes n len) :
    Exact z given (witnessBytes what len (some bytes) loc) n fun bits m =>
      m = n + 8 * len ∧ bytes = z.bytes n len ∧ z.IsBits n (8 * len) ∧
      Bits.Carries z m bits (Layout.bytesToBits bytes) := by
  have bits := Layout.length_bytesToBits bytes
  rw [length] at bits
  rw [witnessBytes_eq length, size_eq small, pure_bind, ← bits]
  refine (exact_witness (Layout.bytesToBits bytes) loc fun h => ?_).mono fun out m _ post => ?_
  · rw [bits, ← Assignment.bytesToBits_bytes, ← spelled h]
  · obtain ⟨position, value, isBits, carried⟩ := post
    refine ⟨position, ?_, isBits, carried⟩
    rw [Assignment.bytes, ← bits, ← value, Layout.bitsToBytes_bytesToBits]

/-- Without an input the same variables are allocated. -/
theorem skeleton_witnessBytes (length : bytes.length = len) (what loc : String) :
    (witnessBytes what len (some bytes) loc).skeleton =
      (witnessBytes what len none loc).skeleton := by
  rw [witnessBytes_eq length]
  exact skeleton_bind_congr rfl fun _ => rfl

theorem lt_of_witnessBytes {r : Bits × ℕ}
    (h : (witnessBytes what len none loc).outcome n = some r) : 8 * len < 2 ^ 64 := by
  obtain ⟨_, _, size, -⟩ := outcome_of_bind h
  exact lt_of_size size

theorem length_of_witnessBytes {r : Bits × ℕ}
    (h : (witnessBytes what len none loc).outcome n = some r) : r.1.length = 8 * len := by
  obtain ⟨k, _, size, rest⟩ := outcome_of_bind h
  rw [size_eq (lt_of_size size)] at size
  cases size
  cases rest
  simp

/-- An input of another length is refused before anything is allocated. -/
theorem witnessBytes_of_length (other : bytes.length ≠ len) (what loc : String) :
    witnessBytes what len (some bytes) loc =
      .fail (.runtime (.inputLength what len bytes.length)) := if_neg other

end Bits
end RankOne
