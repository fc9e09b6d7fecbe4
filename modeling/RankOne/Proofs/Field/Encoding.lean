import RankOne.Field
import RankOne.Proofs.Field.Ring
import RankOne.Proofs.Layout.Consistent
import Mathlib.Algebra.BigOperators.Fin
import Mathlib.Data.Nat.Digits.Defs

/-! Which bytes and bits encode a field element: those that spell a number below the order of the
field, 32 bytes at the beginning, or as many bits as 32 bytes hold. -/
namespace RankOne

namespace Layout

theorem bitsValue_eq_sum (bits : List Bool) :
    bitsValue bits = ∑ i : Fin bits.length, 2 ^ i.val * bits[i].toNat := by
  induction bits with
  | nil => rfl
  | cons b bits ih =>
    rw [bitsValue, ih, Finset.mul_sum]
    refine Eq.trans ?_ (Fin.sum_univ_succ _).symm
    simp [pow_succ', Nat.mul_assoc]

theorem bytesValue_eq_ofDigits (bytes : List UInt8) :
    bytesValue bytes = Nat.ofDigits 256 (bytes.map UInt8.toNat) := by
  induction bytes with
  | nil => rfl
  | cons b bytes ih => rw [bytesValue, ih, List.map_cons, Nat.ofDigits_cons]

end Layout

namespace Fr
variable {bytes : List UInt8} {bits : List Bool} {x : Fr} {n : ℕ}

theorem ofCanonical_eq_ok_iff : ofCanonical n = .ok x ↔ n = x.val := by
  unfold ofCanonical ofNat?
  split
  case h_1 y found =>
    split at found
    · cases found
      rw [Except.ok.injEq, Fr.ext_iff]
    · cases found
  case h_2 missing =>
    split at missing
    · cases missing
    · rename_i large
      exact iff_of_false nofun fun same => large (same ▸ x.isLt)

theorem ofCanonical_eq_error_iff : ofCanonical n = .error .notCanonical ↔ modulus ≤ n := by
  unfold ofCanonical ofNat?
  by_cases small : n < modulus
  · simp [small]
  · simp [small, Nat.not_lt.mp small]

theorem ofBits_eq_ok_iff :
    ofBits bits = .ok x ↔ bits.length ≤ 8 * encodedBytes ∧ Layout.bitsValue bits = x.val := by
  unfold ofBits
  by_cases long : 8 * encodedBytes < bits.length
  · simp [long]
  · rw [if_neg long, ofCanonical_eq_ok_iff]
    simp [Nat.not_lt.mp long]

theorem exists_ofBits_iff : (∃ x, ofBits bits = .ok x) ↔
    bits.length ≤ 8 * encodedBytes ∧ Layout.bitsValue bits < modulus := by
  simp only [ofBits_eq_ok_iff]
  constructor
  · rintro ⟨x, short, same⟩
    exact ⟨short, same ▸ x.isLt⟩
  · rintro ⟨short, small⟩
    exact ⟨(Layout.bitsValue bits : Fr), short, (val_natCast_of_lt small).symm⟩

/-- Any bits are cut already. -/
theorem ofBits_ne_zeroChunk (bits : List Bool) : ofBits bits ≠ .error .zeroChunk := by
  unfold ofBits ofCanonical
  split
  · nofun
  · split <;> nofun

theorem lt_modulus_of_lt_two_pow {k : ℕ} (narrow : k < modulusBits) (h : n < 2 ^ k) :
    n < modulus := calc
  n < 2 ^ k := h
  _ ≤ 2 ^ 253 := Nat.pow_le_pow_right (by decide) (Nat.le_of_lt_succ narrow)
  _ < modulus := by decide

theorem ofBits_of_short (short : bits.length < modulusBits) :
    ofBits bits = .ok (Layout.bitsValue bits : Fr) := by
  have room : modulusBits ≤ 8 * encodedBytes := by decide
  have small := lt_modulus_of_lt_two_pow short (Layout.bitsValue_lt bits)
  exact ofBits_eq_ok_iff.mpr ⟨by omega, (val_natCast_of_lt small).symm⟩

section Bytes

@[simp] theorem length_toBytes (x : Fr) : x.toBytes.length = encodedBytes :=
  Layout.length_natBytes _ _

@[simp] theorem bytesValue_toBytes (x : Fr) : Layout.bytesValue x.toBytes = x.val := by
  have fits : x.val < 2 ^ (8 * encodedBytes) := x.isLt.trans (by decide)
  rw [← Layout.bitsValue_bytesToBits, toBytes, Layout.bytesToBits_natBytes,
    Layout.bitsValue_natBits_of_lt fits]

theorem ofBytes_eq_ok_iff : ofBytes bytes = .ok x ↔
    encodedBytes ≤ bytes.length ∧ Layout.bytesValue (bytes.take encodedBytes) = x.val := by
  unfold ofBytes
  by_cases short : bytes.length < encodedBytes
  · simp [short]
  · rw [if_neg short, ofCanonical_eq_ok_iff]
    simp [Nat.not_lt.mp short]

theorem ofBytes_eq_error_iff : ofBytes bytes = .error .notCanonical ↔
    bytes.length < encodedBytes ∨ modulus ≤ Layout.bytesValue (bytes.take encodedBytes) := by
  unfold ofBytes
  by_cases short : bytes.length < encodedBytes
  · simp [short]
  · rw [if_neg short, ofCanonical_eq_error_iff]
    simp [short]

/-- Canonical bytes are read as the element that they encode, whatever follows them. -/
theorem ofBytes_toBytes_append (x : Fr) (rest : List UInt8) :
    ofBytes (x.toBytes ++ rest) = .ok x := by
  rw [ofBytes_eq_ok_iff, ← length_toBytes x, List.take_left, bytesValue_toBytes]
  simp

theorem ofBytes_toBytes (x : Fr) : ofBytes x.toBytes = .ok x := by
  have read := ofBytes_toBytes_append x []
  rwa [List.append_nil] at read

theorem ofBytesMsb_eq (bytes : List UInt8) :
    ofBytesMsb bytes = ofNat (Nat.ofDigits 256 (bytes.reverse.map UInt8.toNat)) := by
  rw [ofBytesMsb, Layout.bytesValue_eq_ofDigits]

end Bytes

section Bits

/-- Bits that are not too many are read from the bytes in which they are set. -/
theorem ofBits_eq_ofBytes (bits : List Bool) :
    ofBits bits = if 8 * encodedBytes < bits.length
      then .error (.tooManyBits bits.length (8 * encodedBytes))
      else ofBytes (Layout.setBitsOf (toBytes 0) bits) := by
  unfold ofBits
  split
  · rfl
  · rename_i room
    have zero : Layout.bytesValue (toBytes 0) = 0 := bytesValue_toBytes 0
    obtain ⟨length, value⟩ :=
      Layout.bytesValue_setBitsOf zero (by rw [length_toBytes]; exact Nat.not_lt.mp room)
    rw [length_toBytes] at length
    rw [ofBytes, if_neg (by omega), ← length, List.take_length, value]

theorem ofBits_eq_tooManyBits_iff {got capacity : ℕ} :
    ofBits bits = .error (.tooManyBits got capacity) ↔
      8 * encodedBytes < bits.length ∧ got = bits.length ∧ capacity = 8 * encodedBytes := by
  unfold ofBits ofCanonical
  by_cases long : 8 * encodedBytes < bits.length
  · simp [long, eq_comm]
  · rw [if_neg long]
    split <;> simp [long]

theorem ofBits_eq_notCanonical_iff : ofBits bits = .error .notCanonical ↔
    bits.length ≤ 8 * encodedBytes ∧ modulus ≤ Layout.bitsValue bits := by
  unfold ofBits
  by_cases long : 8 * encodedBytes < bits.length
  · simp [long]
  · rw [if_neg long, ofCanonical_eq_error_iff]
    simp [Nat.not_lt.mp long]

end Bits

/-- An element has 32 bytes, which are read back whatever follows them. 32 bytes are read if the
number that they spell lies below the order of the field, as the element that it represents. Up to
256 bits are read as the bytes in which they are set one after the other, and so by the number that
they spell. More bits are too many, and what else is not read is no canonical encoding. -/
theorem canonical_codec (x : Fr) (bytes : List UInt8) (bits : List Bool) :
    x.toBytes.length = 32 ∧
    (∀ rest, ofBytes (x.toBytes ++ rest) = .ok x) ∧
    (ofBytes bytes = .ok x ↔
      32 ≤ bytes.length ∧ Nat.ofDigits 256 ((bytes.take 32).map UInt8.toNat) = x.val) ∧
    (ofBytes bytes = .error .notCanonical ↔
      bytes.length < 32 ∨ modulus ≤ Nat.ofDigits 256 ((bytes.take 32).map UInt8.toNat)) ∧
    (ofBits bits = if 256 < bits.length then .error (.tooManyBits bits.length 256)
      else ofBytes (Layout.setBitsOf (toBytes 0) bits)) ∧
    (∀ got capacity, ofBits bits = .error (.tooManyBits got capacity) ↔
      256 < bits.length ∧ got = bits.length ∧ capacity = 256) ∧
    (ofBits bits = .ok x ↔
      bits.length ≤ 256 ∧ ∑ i : Fin bits.length, 2 ^ i.val * bits[i].toNat = x.val) ∧
    (ofBits bits = .error .notCanonical ↔
      bits.length ≤ 256 ∧ modulus ≤ ∑ i : Fin bits.length, 2 ^ i.val * bits[i].toNat) := by
  rw [← Layout.bytesValue_eq_ofDigits, ← Layout.bitsValue_eq_sum]
  exact ⟨length_toBytes x, ofBytes_toBytes_append x, ofBytes_eq_ok_iff, ofBytes_eq_error_iff,
    ofBits_eq_ofBytes bits, fun _ _ => ofBits_eq_tooManyBits_iff, ofBits_eq_ok_iff,
    ofBits_eq_notCanonical_iff⟩

end Fr
end RankOne
